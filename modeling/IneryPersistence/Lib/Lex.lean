import IneryPersistence.Lib.SortedMap

/-!
# Prefixes in the lexicographic order

The lists that begin with a prefix are neighbours in the lexicographic order.

* `append_lt_append_iff`, `append_lt_append_of_lt`: a common prefix does not matter, nor does what
  follows the first difference;
* **`prefix_of_between`**: what lies between a prefix and a list with it has the prefix too;
* **`takeWhile_prefix`**: from the prefix on, the entries with it come first.
-/

namespace KV

variable {α : Type} [LinearOrder α]

theorem append_lt_append_iff (p : List α) {s t : List α} : p ++ s < p ++ t ↔ s < t := by
  induction p with
  | nil => rfl
  | cons a p ih => simp [ih]

theorem append_le_append_iff (p : List α) {s t : List α} : p ++ s ≤ p ++ t ↔ s ≤ t := by
  rw [← not_lt, append_lt_append_iff, not_lt]

/-- What is not decided by a prefix stays decided when both lists go on. -/
theorem append_lt_append_of_lt {x y : List α} (h : x < y) (hne : ¬x <+: y) (s t : List α) :
    x ++ s < y ++ t := by
  induction x generalizing y with
  | nil => exact absurd List.nil_prefix hne
  | cons a x ih =>
    cases y with
    | nil => exact absurd h (List.not_lt_nil _)
    | cons b y =>
      rw [List.cons_append, List.cons_append, List.cons_lt_cons_iff]
      rcases List.cons_lt_cons_iff.mp h with hab | ⟨rfl, hxy⟩
      · exact .inl hab
      · exact .inr ⟨rfl, ih hxy fun hpre => hne ((List.prefix_cons_inj a).mpr hpre)⟩

theorem le_append (p t : List α) : p ≤ p ++ t := by
  have h : p ++ [] ≤ p ++ t := (append_le_append_iff p).mpr (not_lt.mp (List.not_lt_nil t))
  rwa [List.append_nil] at h

/-- **What lies between a prefix and a list with it has the prefix too.** -/
theorem prefix_of_between {p x t : List α} (h₁ : p ≤ x) (h₂ : x ≤ p ++ t) : p <+: x := by
  induction p generalizing x with
  | nil => exact List.nil_prefix
  | cons a p ih =>
    cases x with
    | nil => exact absurd (List.nil_lt_cons a p) (not_lt.mpr h₁)
    | cons b x =>
      rw [← not_lt, List.cons_lt_cons_iff, not_or, not_and] at h₁
      rw [List.cons_append, ← not_lt, List.cons_lt_cons_iff, not_or, not_and] at h₂
      obtain rfl : a = b := le_antisymm (not_lt.mp h₁.1) (not_lt.mp h₂.1)
      exact (List.prefix_cons_inj a).mpr (ih (not_lt.mp (h₁.2 rfl)) (not_lt.mp (h₂.2 rfl)))

/-- **From a prefix on, the entries with that prefix come first.** -/
theorem takeWhile_prefix {V : Type} {p : List α} {l : List (List α × V)} (hl : Ascending l)
    (hp : ∀ e ∈ l, p ≤ e.1) :
    l.takeWhile (fun e => p.isPrefixOf e.1) = l.filter fun e => p.isPrefixOf e.1 := by
  refine (takeWhile_eq_filter (hl.imp_of_mem fun {e e'} he he' hlt hpre => ?_)).1
  obtain ⟨t, ht⟩ := List.isPrefixOf_iff_prefix.mp hpre
  exact List.isPrefixOf_iff_prefix.mpr (prefix_of_between (hp e he) (ht ▸ hlt.le))

end KV
