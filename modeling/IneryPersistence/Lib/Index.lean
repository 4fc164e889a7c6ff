import Mathlib.Algebra.BigOperators.Group.Finset.Basic

/-!
# Indexes over a set of records

* `Indexes`: a map holds the value of every record of a set under the key of that record, and
  nothing else;
* **`Indexes.insert`**, **`Indexes.erase`**: it follows the set;
* `total`, `total_insert`, `total_erase`: sums over the records of a group;
* `nodup_filterMap_iff`: what is read through a list of keys comes once.
-/

namespace KV

variable {R K V G : Type} [DecidableEq R] [DecidableEq K] [DecidableEq G]

/-- The map holds `value r` under `key r` for the records of the set, and nothing else. -/
def Indexes (view : K → Option V) (key : R → K) (value : R → V) (records : Finset R) : Prop :=
  ∀ k v, view k = some v ↔ ∃ r ∈ records, key r = k ∧ value r = v

namespace Indexes

variable {view : K → Option V} {key : R → K} {value : R → V} {records : Finset R} {r : R}

omit [DecidableEq R] [DecidableEq K] in
theorem empty (key : R → K) (value : R → V) : Indexes (fun _ => none) key value ∅ := fun k v => by simp

omit [DecidableEq R] [DecidableEq K] in
theorem find (h : Indexes view key value records) (hr : r ∈ records) : view (key r) = some (value r) :=
  (h (key r) (value r)).mpr ⟨r, hr, rfl, rfl⟩

theorem insert (h : Indexes view key value records) (hnew : ∀ r' ∈ records, key r' ≠ key r) :
    Indexes (Function.update view (key r) (some (value r))) key value (insert r records) := by
  intro k v
  by_cases hk : k = key r
  · subst hk
    rw [Function.update_self, Option.some_inj]
    constructor
    · rintro rfl
      exact ⟨r, Finset.mem_insert_self r records, rfl, rfl⟩
    · rintro ⟨r', hr', heq, rfl⟩
      rcases Finset.mem_insert.mp hr' with rfl | hr'
      · rfl
      · exact absurd heq (hnew r' hr')
  · rw [Function.update_of_ne hk, h]
    constructor
    · rintro ⟨r', hr', heq, hv⟩
      exact ⟨r', Finset.mem_insert_of_mem hr', heq, hv⟩
    · rintro ⟨r', hr', rfl, hv⟩
      rcases Finset.mem_insert.mp hr' with rfl | hr'
      · exact absurd rfl hk
      · exact ⟨r', hr', rfl, hv⟩

theorem erase (h : Indexes view key value records) (hinj : Set.InjOn key records) (hr : r ∈ records) :
    Indexes (Function.update view (key r) none) key value (records.erase r) := by
  intro k v
  by_cases hk : k = key r
  · subst hk
    rw [Function.update_self]
    refine iff_of_false nofun ?_
    rintro ⟨r', hr', heq, -⟩
    obtain ⟨hne, hmem⟩ := Finset.mem_erase.mp hr'
    exact hne (hinj hmem hr heq)
  · rw [Function.update_of_ne hk, h]
    constructor
    · rintro ⟨r', hr', rfl, hv⟩
      refine ⟨r', Finset.mem_erase.mpr ⟨fun heq => hk (heq ▸ rfl), hr'⟩, rfl, hv⟩
    · rintro ⟨r', hr', heq, hv⟩
      exact ⟨r', Finset.mem_of_mem_erase hr', heq, hv⟩

end Indexes

/-! ## Sums over a group -/

/-- The sum of `amount` over the records of a group. -/
def total (group : R → G) (amount : R → ℕ) (records : Finset R) (g : G) : ℕ :=
  ∑ r ∈ records, if group r = g then amount r else 0

variable {group : R → G} {amount : R → ℕ} {records : Finset R} {r : R}

theorem total_insert (hr : r ∉ records) (g : G) : total group amount (insert r records) g =
    (if group r = g then amount r else 0) + total group amount records g :=
  Finset.sum_insert hr

theorem total_erase (hr : r ∈ records) (g : G) : (if group r = g then amount r else 0) +
    total group amount (records.erase r) g = total group amount records g :=
  Finset.add_sum_erase records (fun r => if group r = g then amount r else 0) hr

theorem le_total (group : R → G) (amount : R → ℕ) (hr : r ∈ records) :
    amount r ≤ total group amount records (group r) := by
  have h := @total_erase R G _ _ group amount records r hr (group r)
  rw [if_pos rfl] at h
  omega

theorem nodup_filterMap_iff {A B : Type} {f : A → Option B} {l : List A} (hl : l.Nodup) :
    (l.filterMap f).Nodup ↔ ∀ a ∈ l, ∀ a' ∈ l, ∀ b, f a = some b → f a' = some b → a = a' := by
  rw [List.Nodup, List.pairwise_filterMap]
  constructor
  · intro h a ha a' ha' b hb hb'
    by_contra hne
    have hsymm : Std.Symm fun a a' : A => ∀ b, f a = some b → ∀ b', f a' = some b' → b ≠ b' :=
      ⟨fun _ _ h b hb b' hb' => (h b' hb' b hb).symm⟩
    exact h.forall ha ha' hne b hb b hb' rfl
  · intro h
    refine hl.imp_of_mem fun {a a'} ha ha' hne b hb b' hb' heq => ?_
    exact hne (h a ha a' ha' b hb (heq ▸ hb'))

end KV
