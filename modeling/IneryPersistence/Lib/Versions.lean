import IneryPersistence.Lib.SortedMap
import Mathlib.Data.Prod.Lex

/-!
# Versions of values in a sorted map

The versions of a key are neighbours, the newest first: a reader at some time takes the first version
that is not newer than this time.

* `while_map`, `map_insert_of_none`: searches and insertions in the image of a map;
* `versionKey`, `versionKey_le_iff`: the order of the versions;
* `readAt`: what is read at a time;
* **`readAt_eq_some_iff`**, `readAt_eq_none_iff`: it is the newest version that is not newer;
* **`readAt_insert`**: what a version that is newer than all others changes.
-/

namespace KV

variable {K V : Type} [LinearOrder K]

/-! ## Images of a map -/

theorem while_congr {A : Type} {p q : A → Bool} {l : List A} (h : ∀ a ∈ l, p a = q a) :
    l.takeWhile p = l.takeWhile q ∧ l.dropWhile p = l.dropWhile q := by
  induction l with
  | nil => exact ⟨rfl, rfl⟩
  | cons a l ih =>
    obtain ⟨htake, hdrop⟩ := ih fun b hb => h b (List.mem_cons_of_mem _ hb)
    have ha := h a List.mem_cons_self
    rw [List.takeWhile_cons, List.takeWhile_cons, List.dropWhile_cons, List.dropWhile_cons, ha, htake, hdrop]
    exact ⟨rfl, rfl⟩

theorem while_map {A : Type} {m : SortedMap K V} {k : K} (f : K × V → A) (q : A → Bool)
    (h : ∀ e ∈ m.entries, q (f e) = true ↔ e.1 < k) :
    (m.entries.map f).takeWhile q = (m.entries.takeWhile fun e => e.1 < k).map f ∧
      (m.entries.map f).dropWhile q = (m.lowerBound k).map f := by
  have hq : ∀ e ∈ m.entries, (q ∘ f) e = decide (e.1 < k) := fun e he => by
    rw [Function.comp_apply, Bool.eq_iff_iff, decide_eq_true_iff]
    exact h e he
  obtain ⟨htake, hdrop⟩ := while_congr hq
  rw [List.takeWhile_map, List.dropWhile_map, htake, hdrop]
  exact ⟨rfl, rfl⟩

theorem entries_insert_of_none {m : SortedMap K V} {k : K} (h : m.find? k = none) (v : V) :
    (m.insert k v).entries = (m.entries.takeWhile fun e => e.1 < k) ++ (k, v) :: m.lowerBound k := by
  have key : ∀ l : List (K × V), lookup k l = none →
      SortedMap.insertEntry k v l = (l.takeWhile fun e => e.1 < k) ++ (k, v) :: l.dropWhile fun e => e.1 < k := by
    intro l hl
    induction l with
    | nil => rfl
    | cons e l ih =>
      obtain ⟨a, w⟩ := e
      rw [lookup_cons] at hl
      split_ifs at hl with hka
      rw [SortedMap.insertEntry]
      rcases lt_or_gt_of_ne hka with hlt | hgt
      · simp [hlt, lt_asymm hlt]
      · simp [hgt, lt_asymm hgt, hgt.ne', ih hl]
  exact key m.entries h

theorem map_insert_of_none {A : Type} {m : SortedMap K V} {k : K} (f : K × V → A) (q : A → Bool)
    (h : ∀ e ∈ m.entries, q (f e) = true ↔ e.1 < k) (hnone : m.find? k = none) (v : V) :
    (m.entries.map f).takeWhile q ++ f (k, v) :: (m.entries.map f).dropWhile q = (m.insert k v).entries.map f := by
  obtain ⟨htake, hdrop⟩ := while_map f q h
  rw [htake, hdrop, entries_insert_of_none hnone, List.map_append, List.map_cons]

/-! ## Versions -/

/-- The place of a version: the keys ascend, the versions of a key descend. -/
def versionKey (k : K) (v : ℕ) : K ×ₗ ℕᵒᵈ := toLex (k, OrderDual.toDual v)

theorem versionKey_le_iff {k k' : K} {v v' : ℕ} :
    versionKey k v ≤ versionKey k' v' ↔ k < k' ∨ k = k' ∧ v' ≤ v := Prod.Lex.toLex_le_toLex

theorem versionKey_lt_iff {k k' : K} {v v' : ℕ} :
    versionKey k v < versionKey k' v' ↔ k < k' ∨ k = k' ∧ v' < v := Prod.Lex.toLex_lt_toLex

omit [LinearOrder K] in
theorem versionKey_inj {k k' : K} {v v' : ℕ} : versionKey k v = versionKey k' v' ↔ k = k' ∧ v = v' := by
  simp [versionKey]

omit [LinearOrder K] in
theorem exists_versionKey (p : K ×ₗ ℕᵒᵈ) : ∃ k v, p = versionKey k v :=
  ⟨(ofLex p).1, OrderDual.ofDual (ofLex p).2, rfl⟩

/-- The first version of a key that is not newer than `t`, and its value. -/
def readAt (m : SortedMap (K ×ₗ ℕᵒᵈ) V) (k : K) (t : ℕ) : Option (ℕ × V) :=
  (m.lowerBound (versionKey k t)).head?.bind fun e =>
    if (ofLex e.1).1 = k then some (OrderDual.ofDual (ofLex e.1).2, e.2) else none

variable {m : SortedMap (K ×ₗ ℕᵒᵈ) V} {k k' : K} {t v : ℕ} {x : V}

theorem newest_of_readAt (h : readAt m k t = some (v, x)) :
    m.find? (versionKey k v) = some x ∧ v ≤ t ∧
      ∀ v' x', m.find? (versionKey k v') = some x' → v' ≤ t → v' ≤ v := by
  obtain ⟨e, he, hread⟩ := Option.bind_eq_some_iff.mp h
  obtain ⟨p, y⟩ := e
  obtain ⟨k', v', rfl⟩ := exists_versionKey p
  split_ifs at hread with hk
  cases hread
  have hk : k' = k := hk
  subst hk
  obtain ⟨l, hl⟩ := List.head?_eq_some_iff.mp he
  have hmem : (versionKey k' v', y) ∈ m.lowerBound (versionKey k' t) := by
    rw [hl]
    exact List.mem_cons_self
  obtain ⟨hin, hle⟩ := SortedMap.mem_lowerBound.mp hmem
  refine ⟨SortedMap.find?_eq_some_iff.mpr hin, ?_, fun w y' hw hwt => ?_⟩
  · rcases versionKey_le_iff.mp hle with hlt | ⟨-, hle⟩
    · exact absurd hlt (lt_irrefl k')
    · exact hle
  · have hwmem : (versionKey k' w, y') ∈ m.lowerBound (versionKey k' t) :=
      SortedMap.mem_lowerBound.mpr ⟨SortedMap.find?_eq_some_iff.mp hw, versionKey_le_iff.mpr (.inr ⟨rfl, hwt⟩)⟩
    have hasc := m.ascending_lowerBound (versionKey k' t)
    rw [hl] at hwmem hasc
    rcases List.mem_cons.mp hwmem with heq | hwmem
    · exact (versionKey_inj.mp (congrArg Prod.fst heq)).2.le
    · rcases versionKey_lt_iff.mp (hasc.head_lt _ hwmem) with hlt | ⟨-, hlt⟩
      · exact absurd hlt (lt_irrefl k')
      · exact hlt.le

theorem readAt_eq_none_iff :
    readAt m k t = none ↔ ∀ v x, m.find? (versionKey k v) = some x → t < v := by
  constructor
  · intro h v x hx
    by_contra hle
    have hmem : (versionKey k v, x) ∈ m.lowerBound (versionKey k t) :=
      SortedMap.mem_lowerBound.mpr
        ⟨SortedMap.find?_eq_some_iff.mp hx, versionKey_le_iff.mpr (.inr ⟨rfl, not_lt.mp hle⟩)⟩
    obtain ⟨e, l, hl⟩ := List.exists_cons_of_ne_nil (List.ne_nil_of_mem hmem)
    have hasc := m.ascending_lowerBound (versionKey k t)
    have hhead : e ∈ m.lowerBound (versionKey k t) := hl ▸ List.mem_cons_self
    obtain ⟨k', v', he⟩ := exists_versionKey e.1
    have hfirst : e.1 ≤ versionKey k v := by
      rw [hl] at hmem hasc
      rcases List.mem_cons.mp hmem with heq | hmem
      · exact (congrArg Prod.fst heq).ge
      · exact (hasc.head_lt _ hmem).le
    have hkey : k' = k := by
      have hle₁ := (SortedMap.mem_lowerBound.mp hhead).2
      rw [he] at hle₁ hfirst
      rcases versionKey_le_iff.mp hle₁ with hlt | ⟨heq, -⟩
      · rcases versionKey_le_iff.mp hfirst with hlt' | ⟨heq, -⟩
        · exact absurd hlt (lt_asymm hlt')
        · exact heq
      · exact heq.symm
    have hthis : (ofLex e.1).1 = k := by
      rw [he]
      exact hkey
    rw [readAt, hl, List.head?_cons, Option.bind_some, if_pos hthis] at h
    cases h
  · intro h
    refine Option.eq_none_iff_forall_ne_some.mpr fun r hr => ?_
    obtain ⟨hfind, hle, -⟩ := newest_of_readAt hr
    exact absurd (h _ _ hfind) (not_lt.mpr hle)

/-- **What is read is the newest version** that is not newer than the time. -/
theorem readAt_eq_some_iff :
    readAt m k t = some (v, x) ↔ m.find? (versionKey k v) = some x ∧ v ≤ t ∧
      ∀ v' x', m.find? (versionKey k v') = some x' → v' ≤ t → v' ≤ v := by
  refine ⟨newest_of_readAt, fun ⟨hfind, hle, hmax⟩ => ?_⟩
  cases hread : readAt m k t with
  | none => exact absurd (readAt_eq_none_iff.mp hread v x hfind) (not_lt.mpr hle)
  | some r =>
    obtain ⟨v', x'⟩ := r
    obtain ⟨hfind', hle', hmax'⟩ := newest_of_readAt hread
    obtain rfl : v' = v := le_antisymm (hmax _ _ hfind' hle') (hmax' _ _ hfind hle)
    rw [hfind] at hfind'
    cases hfind'
    rfl

@[simp] theorem readAt_empty : readAt (∅ : SortedMap (K ×ₗ ℕᵒᵈ) V) k t = none := rfl

/-- **What a version that is newer than all others changes.** -/
theorem readAt_insert (h : ∀ v' x', m.find? (versionKey k v') = some x' → v' < v) (x : V) (k' : K) (t : ℕ) :
    readAt (m.insert (versionKey k v) x) k' t = if k' = k ∧ v ≤ t then some (v, x) else readAt m k' t := by
  split_ifs with hk
  · obtain ⟨rfl, hvt⟩ := hk
    refine readAt_eq_some_iff.mpr ⟨SortedMap.find?_insert_self _ _ _, hvt, fun v' x' hfind hle => ?_⟩
    rw [SortedMap.find?_insert] at hfind
    split_ifs at hfind with heq
    · exact (versionKey_inj.mp heq).2.le
    · exact (h v' x' hfind).le
  · have hsame : ∀ v', v' ≤ t → (m.insert (versionKey k v) x).find? (versionKey k' v') =
        m.find? (versionKey k' v') := by
      intro v' hle
      refine SortedMap.find?_insert_of_ne _ (fun heq => hk ?_) _
      obtain ⟨rfl, rfl⟩ := versionKey_inj.mp heq
      exact ⟨rfl, hle⟩
    cases hread : readAt m k' t with
    | none =>
      refine readAt_eq_none_iff.mpr fun v' x' hfind => ?_
      by_contra hle
      rw [hsame v' (not_lt.mp hle)] at hfind
      exact hle (readAt_eq_none_iff.mp hread v' x' hfind)
    | some r =>
      obtain ⟨hfind, hle, hmax⟩ := newest_of_readAt hread
      refine readAt_eq_some_iff.mpr ⟨(hsame _ hle).trans hfind, hle, fun v' x' hfind' hle' => ?_⟩
      rw [hsame v' hle'] at hfind'
      exact hmax v' x' hfind' hle'

end KV
