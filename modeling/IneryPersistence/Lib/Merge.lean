import IneryPersistence.Lib.SortedMap
import Mathlib.Tactic.Common

/-!
# Merging a list of entries over another one

Two cursors walk a list of entries and the list it lies over. The smaller key comes first; at equal
keys the upper entry is taken and both cursors move on.

* `overlay`: the entries in the order the two cursors give them;
* `mem_overlay`, `length_overlay_le`: nothing is made up;
* `ascending_overlay`, **`lookup_overlay`**: over ascending lists it is the ascending list of the
  overlaid map;
* **`overlay_append_append`**: lists that are merged piece by piece.
-/

namespace KV

variable {K V : Type} [LinearOrder K]

/-- The entries of `m` laid over those of `b`, as two cursors merge them. -/
def overlay : List (K × V) → List (K × V) → List (K × V)
  | [], b => b
  | m, [] => m
  | (mk, mv) :: m, (bk, bv) :: b =>
    if bk < mk then (bk, bv) :: overlay ((mk, mv) :: m) b
    else if mk < bk then (mk, mv) :: overlay m ((bk, bv) :: b)
    else (mk, mv) :: overlay m b
termination_by m b => m.length + b.length

@[simp] theorem overlay_nil_left (b : List (K × V)) : overlay [] b = b := by rw [overlay]

@[simp] theorem overlay_nil_right (m : List (K × V)) : overlay m [] = m := by
  cases m <;> simp [overlay]

theorem overlay_cons_cons (mk : K) (mv : V) (m : List (K × V)) (bk : K) (bv : V) (b : List (K × V)) :
    overlay ((mk, mv) :: m) ((bk, bv) :: b) =
      if bk < mk then (bk, bv) :: overlay ((mk, mv) :: m) b
      else if mk < bk then (mk, mv) :: overlay m ((bk, bv) :: b)
      else (mk, mv) :: overlay m b := by
  rw [overlay]

theorem mem_overlay {m b : List (K × V)} {e : K × V} (h : e ∈ overlay m b) : e ∈ m ∨ e ∈ b := by
  fun_induction overlay m b with
  | case1 b => exact .inr h
  | case2 m => exact .inl h
  | case3 mk mv m bk bv b hlt ih =>
    rcases List.mem_cons.mp h with rfl | h
    · exact .inr List.mem_cons_self
    · exact (ih h).imp_right (List.mem_cons_of_mem _)
  | case4 mk mv m bk bv b hle hlt ih =>
    rcases List.mem_cons.mp h with rfl | h
    · exact .inl List.mem_cons_self
    · exact (ih h).imp_left (List.mem_cons_of_mem _)
  | case5 mk mv m bk bv b hle hge ih =>
    rcases List.mem_cons.mp h with rfl | h
    · exact .inl List.mem_cons_self
    · exact (ih h).imp (List.mem_cons_of_mem _) (List.mem_cons_of_mem _)

theorem length_overlay_le (m b : List (K × V)) : (overlay m b).length ≤ m.length + b.length := by
  fun_induction overlay m b with
  | case1 b => simp
  | case2 m => simp
  | case3 mk mv m bk bv b hlt ih =>
    simp only [List.length_cons] at ih ⊢
    omega
  | case4 mk mv m bk bv b hle hlt ih =>
    simp only [List.length_cons] at ih ⊢
    omega
  | case5 mk mv m bk bv b hle hge ih =>
    simp only [List.length_cons] at ih ⊢
    omega

theorem ascending_cons {e : K × V} {l : List (K × V)} (h : ∀ e' ∈ l, e.1 < e'.1) (hl : Ascending l) :
    Ascending (e :: l) := List.pairwise_cons.mpr ⟨h, hl⟩

theorem ascending_overlay {m b : List (K × V)} (hm : Ascending m) (hb : Ascending b) :
    Ascending (overlay m b) := by
  fun_induction overlay m b with
  | case1 b => exact hb
  | case2 m => exact hm
  | case3 mk mv m bk bv b hlt ih =>
    refine ascending_cons (fun e he => ?_) (ih hm hb.tail)
    rcases mem_overlay he with he | he
    · rcases List.mem_cons.mp he with rfl | he
      · exact hlt
      · exact hlt.trans (hm.head_lt e he)
    · exact hb.head_lt e he
  | case4 mk mv m bk bv b hle hlt ih =>
    refine ascending_cons (fun e he => ?_) (ih hm.tail hb)
    rcases mem_overlay he with he | he
    · exact hm.head_lt e he
    · rcases List.mem_cons.mp he with rfl | he
      · exact hlt
      · exact hlt.trans (hb.head_lt e he)
  | case5 mk mv m bk bv b hle hge ih =>
    obtain rfl : mk = bk := le_antisymm (not_lt.mp hle) (not_lt.mp hge)
    refine ascending_cons (fun e he => ?_) (ih hm.tail hb.tail)
    rcases mem_overlay he with he | he
    · exact hm.head_lt e he
    · exact hb.head_lt e he

theorem lookup_of_lt {l : List (K × V)} {k : K} (h : ∀ e ∈ l, k < e.1) : lookup k l = none :=
  lookup_eq_none fun e he => ne_of_lt (h e he)

/-- **The merged list is the overlaid map.** -/
theorem lookup_overlay {m b : List (K × V)} (hm : Ascending m) (hb : Ascending b) (k : K) :
    lookup k (overlay m b) = (lookup k m).or (lookup k b) := by
  fun_induction overlay m b with
  | case1 b => rfl
  | case2 m => rw [lookup, Option.or_none]
  | case3 mk mv m bk bv b hlt ih =>
    rw [lookup_cons, ih hm hb.tail, lookup_cons k bk]
    split_ifs with h
    · subst h
      rw [lookup_of_lt fun e he => ?_, Option.none_or]
      rcases List.mem_cons.mp he with rfl | he
      · exact hlt
      · exact hlt.trans (hm.head_lt e he)
    · rfl
  | case4 mk mv m bk bv b hle hlt ih =>
    rw [lookup_cons, ih hm.tail hb, lookup_cons k mk]
    split_ifs <;> rfl
  | case5 mk mv m bk bv b hle hge ih =>
    obtain rfl : mk = bk := le_antisymm (not_lt.mp hle) (not_lt.mp hge)
    rw [lookup_cons, ih hm.tail hb.tail, lookup_cons, lookup_cons]
    split_ifs <;> rfl

theorem overlay_cons_of_lt {m b : List (K × V)} {e : K × V} (h : ∀ e' ∈ m, e.1 < e'.1) :
    overlay m (e :: b) = e :: overlay m b := by
  cases m with
  | nil => simp
  | cons e' m => rw [overlay_cons_cons, if_pos (h e' List.mem_cons_self)]

/-- **Lists that are merged piece by piece.** Every upper entry of the first piece comes before some
lower entry of its piece or before the rest of the lower list; no upper entry of the second piece
comes before a lower entry of the first. -/
theorem overlay_append_append {m m' x b : List (K × V)} (hm : Ascending m)
    (h : ∀ e ∈ m, (∃ e' ∈ x, e.1 ≤ e'.1) ∨ ∀ e' ∈ b.head?, e.1 < e'.1)
    (h' : ∀ e ∈ m'.head?, ∀ e' ∈ x, e'.1 < e.1) :
    overlay (m ++ m') (x ++ b) = overlay m x ++ overlay m' b := by
  fun_induction overlay m x with
  | case1 x =>
    induction x with
    | nil => rfl
    | cons e x ih =>
      have hx : ∀ e' ∈ m'.head?, ∀ e'' ∈ x, e''.1 < e'.1 := fun e' he' e'' he'' =>
        h' e' he' e'' (List.mem_cons_of_mem _ he'')
      cases m' with
      | nil => simp
      | cons e' m' =>
        rw [List.nil_append, List.cons_append, overlay_cons_cons,
          if_pos (h' e' rfl e List.mem_cons_self), List.cons_append, ← ih (by simp) hx]
        rfl
  | case2 m hne =>
    clear h' hne
    induction m with
    | nil => rfl
    | cons e m ih =>
      cases b with
      | nil => simp
      | cons e' b =>
        have hlt : e.1 < e'.1 := by simpa using h e List.mem_cons_self
        rw [List.cons_append, List.nil_append, overlay_cons_cons, if_neg hlt.not_gt, if_pos hlt,
          List.cons_append]
        exact congrArg (e :: ·) (ih hm.tail fun e he => h e (List.mem_cons_of_mem _ he))
  | case3 mk mv m bk bv x hlt ih =>
    rw [List.cons_append, List.cons_append, overlay_cons_cons, if_pos hlt, List.cons_append,
      ← List.cons_append, ih hm (fun e he => ?_) fun e he e' he' => h' e he e' (List.mem_cons_of_mem _ he')]
    refine (h e he).imp_left fun ⟨e', he', hle⟩ => ?_
    rcases List.mem_cons.mp he' with rfl | he'
    · have hmk : mk ≤ e.1 := by
        rcases List.mem_cons.mp he with rfl | he
        · exact le_rfl
        · exact (hm.head_lt e he).le
      exact absurd (hmk.trans hle) hlt.not_ge
    · exact ⟨e', he', hle⟩
  | case4 mk mv m bk bv x hle hlt ih =>
    rw [List.cons_append, List.cons_append, overlay_cons_cons, if_neg hle, if_pos hlt,
      List.cons_append, ← List.cons_append, ih hm.tail (fun e he => h e (List.mem_cons_of_mem _ he)) h']
  | case5 mk mv m bk bv x hle hge ih =>
    obtain rfl : mk = bk := le_antisymm (not_lt.mp hle) (not_lt.mp hge)
    rw [List.cons_append, List.cons_append, overlay_cons_cons, if_neg hle, if_neg hge,
      List.cons_append, ih hm.tail (fun e he => ?_) fun e he e' he' => h' e he e' (List.mem_cons_of_mem _ he')]
    refine (h e (List.mem_cons_of_mem _ he)).imp_left fun ⟨e', he', hle'⟩ => ?_
    rcases List.mem_cons.mp he' with rfl | he'
    · exact absurd (hm.head_lt e he) hle'.not_gt
    · exact ⟨e', he', hle'⟩

end KV
