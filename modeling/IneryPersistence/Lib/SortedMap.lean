import Mathlib.Algebra.GroupWithZero.Nat
import Mathlib.Algebra.Order.Group.Nat
import Mathlib.Data.List.Lex
import Mathlib.Data.List.Nodup
import Mathlib.Order.Bounds.Basic
import Mathlib.Order.Fin.Basic
import Mathlib.Tactic.Common

/-!
# Sorted maps

An ordered map is the list of its entries with strictly ascending keys: the entries from a key on
are then a suffix of that list, which is what a map iterator walks.

* `takeWhile_eq_filter`, `exists_append_of_pairwise`: initial segments of a list;
* `Ascending`, `Ascending.ext`: an ascending list is determined by its members;
* `SortedMap`, `find?`, `insert`, `erase` and their lookup laws, `ext_find?`;
* `lowerBound`, `upperBound`: the entries not below, or above, a key;
* **`find?_foldl_insert`**: writing the entries of one map into another.
-/

namespace KV

/-- The first value stored under `k`. -/
def lookup {K V : Type} [LinearOrder K] (k : K) : List (K × V) → Option V
  | [] => none
  | (a, w) :: l => if k = a then some w else lookup k l

theorem lookup_cons {K V : Type} [LinearOrder K] (k a : K) (w : V) (l : List (K × V)) :
    lookup k ((a, w) :: l) = if k = a then some w else lookup k l := rfl

theorem lookup_eq_none {K V : Type} [LinearOrder K] {k : K} {l : List (K × V)}
    (h : ∀ e ∈ l, k ≠ e.1) : lookup k l = none := by
  induction l with
  | nil => rfl
  | cons e l ih =>
    obtain ⟨a, w⟩ := e
    rw [lookup_cons, if_neg (h _ List.mem_cons_self), ih fun e he => h e (List.mem_cons_of_mem _ he)]

/-- **An initial segment** of a list is what a test lets through when no later entry passes it that
an earlier one fails. -/
theorem takeWhile_eq_filter {α : Type} {q : α → Bool} {l : List α}
    (h : l.Pairwise fun a b => q b = true → q a = true) :
    l.takeWhile q = l.filter q ∧ l.dropWhile q = l.filter fun a => !q a := by
  induction l with
  | nil => exact ⟨rfl, rfl⟩
  | cons a l ih =>
    obtain ⟨ha, hl⟩ := List.pairwise_cons.mp h
    cases hq : q a with
    | true => simp [hq, ih hl]
    | false =>
      have hnone : ∀ b ∈ l, q b = false := fun b hb => by
        cases hqb : q b with
        | false => rfl
        | true => simpa [hq] using ha b hb hqb
      have htake : l.filter q = [] := List.filter_eq_nil_iff.mpr (by simpa using hnone)
      have hdrop : l.filter (fun b => !q b) = l := List.filter_eq_self.mpr (by simpa using hnone)
      simp [hq, htake, hdrop]

theorem exists_append_of_pairwise {α : Type} {q : α → Prop} {l : List α}
    (h : l.Pairwise fun a b => q b → q a) :
    ∃ x y, l = x ++ y ∧ (∀ a, a ∈ x ↔ a ∈ l ∧ q a) ∧ ∀ a ∈ y, a ∈ l ∧ ¬q a := by
  classical
  have hq : l.Pairwise fun a b => decide (q b) = true → decide (q a) = true := by simpa using h
  obtain ⟨htake, hdrop⟩ := takeWhile_eq_filter hq
  refine ⟨l.takeWhile fun a => q a, l.dropWhile fun a => q a, List.takeWhile_append_dropWhile.symm,
    fun a => ?_, fun a ha => ?_⟩
  · rw [htake, List.mem_filter, decide_eq_true_iff]
  · rw [hdrop] at ha
    simpa using ha

/-- The keys of `l` are strictly ascending. -/
def Ascending {K V : Type} [LinearOrder K] (l : List (K × V)) : Prop :=
  l.Pairwise fun a b => a.1 < b.1

/-- An ordered map: its entries in ascending order of their keys. -/
structure SortedMap (K V : Type) [LinearOrder K] where
  entries : List (K × V)
  ascending : Ascending entries

namespace Ascending

variable {K V : Type} [LinearOrder K] {l l' : List (K × V)}

theorem tail {e : K × V} (h : Ascending (e :: l)) : Ascending l := List.Pairwise.of_cons h

theorem head_lt {e : K × V} (h : Ascending (e :: l)) : ∀ e' ∈ l, e.1 < e'.1 := fun _ he =>
  List.rel_of_pairwise_cons h he

theorem filter (h : Ascending l) (q : K × V → Bool) : Ascending (l.filter q) := List.Pairwise.filter q h

theorem nodup_keys (h : Ascending l) : (l.map Prod.fst).Nodup := by
  rw [List.Nodup, List.pairwise_map]
  exact h.imp fun hlt => ne_of_lt hlt

theorem nodup (h : Ascending l) : l.Nodup := List.Nodup.of_map _ h.nodup_keys

theorem behind {l₁ l₂ : List (K × V)} {e : K × V} (h : Ascending (l₁ ++ e :: l₂)) : Ascending l₂ :=
  tail (List.Pairwise.sublist (List.sublist_append_right l₁ _) h)

theorem mem_behind {l₁ l₂ : List (K × V)} {e x : K × V} (h : Ascending (l₁ ++ e :: l₂)) :
    x ∈ l₂ ↔ x ∈ l₁ ++ e :: l₂ ∧ e.1 < x.1 := by
  obtain ⟨-, htail, hcross⟩ := List.pairwise_append.mp h
  constructor
  · intro hx
    exact ⟨List.mem_append_right _ (List.mem_cons_of_mem _ hx), head_lt htail x hx⟩
  · rintro ⟨hx, hlt⟩
    rcases List.mem_append.mp hx with hx | hx
    · exact absurd hlt (lt_asymm (hcross x hx e List.mem_cons_self))
    · rcases List.mem_cons.mp hx with rfl | hx
      · exact absurd hlt (lt_irrefl _)
      · exact hx

theorem exists_getElem?_zero_iff (h : Ascending l) (k : K) :
    (∃ v, l[0]? = some (k, v)) ↔ IsLeast {k | ∃ v, (k, v) ∈ l} k := by
  cases l with
  | nil => exact iff_of_false (fun ⟨v, hv⟩ => by cases hv) fun hk => by obtain ⟨⟨v, hv⟩, -⟩ := hk; cases hv
  | cons e l =>
    obtain ⟨a, w⟩ := e
    have hleast : IsLeast {k | ∃ v, (k, v) ∈ (a, w) :: l} a := by
      refine ⟨⟨w, List.mem_cons_self⟩, ?_⟩
      rintro k ⟨v, hv⟩
      rcases List.mem_cons.mp hv with heq | hv
      · exact (congrArg Prod.fst heq).ge
      · exact (h.head_lt _ hv).le
    constructor
    · rintro ⟨v, hv⟩
      obtain rfl : a = k := congrArg Prod.fst (Option.some.inj hv)
      exact hleast
    · intro hk
      obtain rfl := hleast.unique hk
      exact ⟨w, rfl⟩

theorem exists_getElem?_succ_iff (h : Ascending l) {n : ℕ} {e : K × V} (he : l[n]? = some e) (k : K) :
    (∃ v, l[n + 1]? = some (k, v)) ↔ IsLeast {k | (∃ v, (k, v) ∈ l) ∧ e.1 < k} k := by
  obtain ⟨hn, he⟩ := List.getElem?_eq_some_iff.mp he
  have hsplit : l = l.take n ++ e :: l.drop (n + 1) := by
    rw [← he, ← List.drop_eq_getElem_cons hn, List.take_append_drop]
  have hbehind : {k | ∃ v, (k, v) ∈ l.drop (n + 1)} = {k | (∃ v, (k, v) ∈ l) ∧ e.1 < k} := by
    ext k
    have hmem : ∀ v, (k, v) ∈ l.drop (n + 1) ↔ (k, v) ∈ l ∧ e.1 < k := fun v => by
      have hmem := mem_behind (x := (k, v)) (hsplit ▸ h)
      rwa [← hsplit] at hmem
    exact (exists_congr hmem).trans exists_and_right
  rw [← hbehind, ← exists_getElem?_zero_iff (h.sublist (List.drop_sublist _ _)) k, List.getElem?_drop, Nat.add_zero]

/-- **An ascending list is determined by its members.** -/
theorem ext (h : Ascending l) (h' : Ascending l') (hm : ∀ e, e ∈ l ↔ e ∈ l') : l = l' := by
  have hasymm : ∀ a b : K × V, a ∈ l → b ∈ l' → a.1 < b.1 → b.1 < a.1 → a = b :=
    fun a b _ _ hab hba => absurd hab (lt_asymm hba)
  exact List.Perm.eq_of_pairwise hasymm h h' ((List.perm_ext_iff_of_nodup h.nodup h'.nodup).mpr hm)

theorem lookup_eq_some_iff (h : Ascending l) {k : K} {v : V} : lookup k l = some v ↔ (k, v) ∈ l := by
  induction l with
  | nil => simp [lookup]
  | cons e l ih =>
    obtain ⟨a, w⟩ := e
    rw [lookup_cons]
    split_ifs with hk
    · subst hk
      have hnot : (k, v) ∉ l := fun hm => lt_irrefl k (h.head_lt _ hm)
      simp [hnot, eq_comm]
    · simp [hk, ih h.tail]

end Ascending

namespace SortedMap

variable {K V : Type} [LinearOrder K]

instance [DecidableEq V] : DecidableEq (SortedMap K V) := fun a b =>
  decidable_of_iff (a.entries = b.entries) (by cases a; cases b; simp)

/-- The map with no entry. -/
def empty : SortedMap K V := ⟨[], List.Pairwise.nil⟩

instance : EmptyCollection (SortedMap K V) := ⟨empty⟩

/-- The value stored under `k`. -/
def find? (m : SortedMap K V) (k : K) : Option V := lookup k m.entries

/-- Put `(k, v)` at its place, over an entry of the same key. -/
def insertEntry (k : K) (v : V) : List (K × V) → List (K × V)
  | [] => [(k, v)]
  | (a, w) :: l =>
    if k < a then (k, v) :: (a, w) :: l
    else if k = a then (k, v) :: l
    else (a, w) :: insertEntry k v l

theorem mem_insertEntry {k : K} {v : V} {e : K × V} {l : List (K × V)} (h : e ∈ insertEntry k v l) :
    e = (k, v) ∨ e ∈ l := by
  induction l with
  | nil => exact Or.inl (by simpa [insertEntry] using h)
  | cons x l ih =>
    obtain ⟨a, w⟩ := x
    simp only [insertEntry] at h
    split_ifs at h with h1 h2
    · exact List.mem_cons.mp h
    · rcases List.mem_cons.mp h with rfl | h
      · exact Or.inl rfl
      · exact Or.inr (List.mem_cons_of_mem _ h)
    · rcases List.mem_cons.mp h with rfl | h
      · exact Or.inr List.mem_cons_self
      · exact (ih h).imp_right (List.mem_cons_of_mem _)

theorem ascending_insertEntry (k : K) (v : V) {l : List (K × V)} (h : Ascending l) :
    Ascending (insertEntry k v l) := by
  induction l with
  | nil => exact List.pairwise_singleton _ _
  | cons x l ih =>
    obtain ⟨a, w⟩ := x
    simp only [insertEntry]
    split_ifs with h1 h2
    · refine List.Pairwise.cons ?_ h
      intro e he
      rcases List.mem_cons.mp he with rfl | he
      · exact h1
      · exact lt_trans h1 (h.head_lt e he)
    · subst h2
      exact List.Pairwise.cons (fun e he => h.head_lt e he) h.tail
    · refine List.Pairwise.cons ?_ (ih h.tail)
      intro e he
      rcases mem_insertEntry he with rfl | he
      · exact lt_of_le_of_ne (not_lt.mp h1) (Ne.symm h2)
      · exact h.head_lt e he

/-- The map with `v` stored under `k`. -/
def insert (m : SortedMap K V) (k : K) (v : V) : SortedMap K V :=
  ⟨insertEntry k v m.entries, ascending_insertEntry k v m.ascending⟩

/-- The map without the entry of `k`. -/
def erase (m : SortedMap K V) (k : K) : SortedMap K V :=
  ⟨m.entries.filter fun e => e.1 ≠ k, m.ascending.filter _⟩

/-- The entries whose key is not below `k`. -/
def lowerBound (m : SortedMap K V) (k : K) : List (K × V) := m.entries.dropWhile fun e => e.1 < k

/-- The entries whose key is above `k`. -/
def upperBound (m : SortedMap K V) (k : K) : List (K × V) := m.entries.dropWhile fun e => e.1 ≤ k

@[simp] theorem find?_empty (k : K) : (∅ : SortedMap K V).find? k = none := rfl

theorem find?_eq_some_iff {m : SortedMap K V} {k : K} {v : V} :
    m.find? k = some v ↔ (k, v) ∈ m.entries := m.ascending.lookup_eq_some_iff

theorem lookup_insertEntry (k k' : K) (v : V) (l : List (K × V)) :
    lookup k' (insertEntry k v l) = if k' = k then some v else lookup k' l := by
  induction l with
  | nil => rw [insertEntry, lookup_cons]
  | cons x l ih =>
    obtain ⟨a, w⟩ := x
    rw [insertEntry]
    by_cases h1 : k < a
    · rw [if_pos h1, lookup_cons]
    rw [if_neg h1]
    by_cases h2 : k = a
    · subst h2
      rw [if_pos rfl, lookup_cons, lookup_cons]
      split_ifs <;> rfl
    rw [if_neg h2, lookup_cons, lookup_cons, ih]
    by_cases h3 : k' = a
    · rw [if_pos h3, if_neg (fun e => h2 (e.symm.trans h3)), if_pos h3]
    · rw [if_neg h3, if_neg h3]

theorem find?_insert (m : SortedMap K V) (k k' : K) (v : V) :
    (m.insert k v).find? k' = if k' = k then some v else m.find? k' :=
  lookup_insertEntry k k' v m.entries

@[simp] theorem find?_insert_self (m : SortedMap K V) (k : K) (v : V) :
    (m.insert k v).find? k = some v := by simp [find?_insert]

theorem find?_insert_of_ne (m : SortedMap K V) {k k' : K} (h : k' ≠ k) (v : V) :
    (m.insert k v).find? k' = m.find? k' := by simp [find?_insert, h]

theorem find?_insert_eq_update (m : SortedMap K V) (k : K) (v : V) :
    (m.insert k v).find? = Function.update m.find? k (some v) := by
  funext k'
  by_cases h : k' = k
  · subst h
    simp
  · rw [find?_insert_of_ne m h, Function.update_of_ne h]

theorem find?_erase (m : SortedMap K V) (k k' : K) :
    (m.erase k).find? k' = if k' = k then none else m.find? k' := by
  refine Option.ext fun v => ?_
  rw [find?_eq_some_iff]
  split_ifs with h
  · simp [erase, h]
  · rw [find?_eq_some_iff]
    simp [erase, h]

/-- **A map is determined by its lookups.** -/
theorem ext_find? {m m' : SortedMap K V} (h : ∀ k, m.find? k = m'.find? k) : m = m' := by
  have he : m.entries = m'.entries := m.ascending.ext m'.ascending fun ⟨k, v⟩ => by
    rw [← find?_eq_some_iff, ← find?_eq_some_iff, h k]
  cases m
  cases m'
  simpa using he

theorem eq_empty_of_entries {m : SortedMap K V} (h : m.entries = []) : m = ∅ :=
  ext_find? fun k => by rw [find?, h]; rfl

theorem mem_lowerBound {m : SortedMap K V} {k : K} {e : K × V} :
    e ∈ m.lowerBound k ↔ e ∈ m.entries ∧ k ≤ e.1 := by
  have hsegment := takeWhile_eq_filter (q := fun e => e.1 < k) (m.ascending.imp fun {a b} hab hb =>
    decide_eq_true (hab.trans (of_decide_eq_true hb)))
  rw [lowerBound, hsegment.2]
  simp

theorem mem_upperBound {m : SortedMap K V} {k : K} {e : K × V} :
    e ∈ m.upperBound k ↔ e ∈ m.entries ∧ k < e.1 := by
  have hsegment := takeWhile_eq_filter (q := fun e => e.1 ≤ k) (m.ascending.imp fun {a b} hab hb =>
    decide_eq_true (hab.le.trans (of_decide_eq_true hb)))
  rw [upperBound, hsegment.2]
  simp

theorem ascending_lowerBound (m : SortedMap K V) (k : K) : Ascending (m.lowerBound k) :=
  m.ascending.sublist (List.dropWhile_sublist _)

theorem ascending_upperBound (m : SortedMap K V) (k : K) : Ascending (m.upperBound k) :=
  m.ascending.sublist (List.dropWhile_sublist _)

theorem upperBound_eq (m : SortedMap K V) (k : K) :
    m.upperBound k = match m.lowerBound k with
      | [] => []
      | e :: l => if e.1 = k then l else e :: l := by
  have key : ∀ l : List (K × V), Ascending l → l.dropWhile (fun e => e.1 ≤ k) =
      match l.dropWhile (fun e => e.1 < k) with
      | [] => []
      | e :: l => if e.1 = k then l else e :: l := by
    intro l hl
    induction l with
    | nil => rfl
    | cons x l ih =>
      rcases lt_trichotomy x.1 k with hx | hx | hx
      · simp [hx, hx.le, ih hl.tail]
      · have hnot : ∀ e ∈ l, ¬ e.1 ≤ k := fun e he => not_le.mpr (hx ▸ hl.head_lt e he)
        have hdrop : l.dropWhile (fun e => e.1 ≤ k) = l := by
          cases l with
          | nil => rfl
          | cons y l => simp [hnot y List.mem_cons_self]
        simp [hx, hdrop]
      · simp [hx.not_ge, hx.not_gt, hx.ne']
  exact key m.entries m.ascending

/-- **A loop over entries whose steps change one slot each.** -/
theorem slot_foldl {S A : Type} (step : S → K × V → S) (slot : S → K → A) (g : A → V → A)
    (hself : ∀ s e, slot (step s e) e.1 = g (slot s e.1) e.2)
    (hother : ∀ s e k, k ≠ e.1 → slot (step s e) k = slot s k)
    {l : List (K × V)} (hl : Ascending l) (s : S) (k : K) :
    slot (l.foldl step s) k = (lookup k l).elim (slot s k) (g (slot s k)) := by
  induction l generalizing s with
  | nil => rfl
  | cons x l ih =>
    obtain ⟨a, w⟩ := x
    rw [List.foldl_cons, ih hl.tail, lookup_cons]
    split_ifs with hk
    · subst hk
      have hnone : lookup k l = none := lookup_eq_none fun e he => ne_of_lt (hl.head_lt e he)
      rw [hnone]
      exact hself s (k, w)
    · rw [hother s (a, w) k hk]

/-- **Writing the entries of one map into another.** -/
theorem find?_foldl_insert {l : List (K × V)} (hl : Ascending l) (m : SortedMap K V) (k : K) :
    (l.foldl (fun m e => m.insert e.1 e.2) m).find? k = (lookup k l).or (m.find? k) := by
  rw [slot_foldl _ find? (fun _ v => some v) (fun m e => find?_insert_self m e.1 e.2)
    (fun m e k hk => find?_insert_of_ne m hk e.2) hl m k]
  cases lookup k l <;> rfl

theorem find?_foldl_insert_const {A : Type} (f : A → K) (v : V) (l : List A) (m : SortedMap K V) (k : K) :
    (l.foldl (fun m a => m.insert (f a) v) m).find? k =
      if k ∈ l.map f then some v else m.find? k := by
  induction l generalizing m with
  | nil => simp
  | cons a l ih =>
    rw [List.foldl_cons, ih, find?_insert, List.map_cons]
    by_cases hk : k = f a <;> by_cases hl : k ∈ l.map f <;> simp [hk, hl, List.mem_cons]

theorem find?_foldl_erase {A : Type} (f : A → K) (l : List A) (m : SortedMap K V) (k : K) :
    (l.foldl (fun m a => m.erase (f a)) m).find? k = if k ∈ l.map f then none else m.find? k := by
  induction l generalizing m with
  | nil => simp
  | cons a l ih =>
    rw [List.foldl_cons, ih, find?_erase, List.map_cons]
    by_cases hk : k = f a <;> by_cases hl : k ∈ l.map f <;> simp [hk, hl, List.mem_cons]

end SortedMap

end KV
