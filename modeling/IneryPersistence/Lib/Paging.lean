import Mathlib.Data.List.Basic
import Mathlib.Tactic.Common

/-!
# Reading a list page by page

A reader asks for the first page, and then for the page behind the last key of the page before, until a page is
empty.

* `readPages`: the pages, as many as the fuel allows;
* `Resumes`: a page asked for behind the last key of another one continues the list;
* **`exists_readPages`**: then the pages are the list, cut into pieces;
* `getLast?_readPages`: they end with an empty page;
* **`readPages_eq_none`**: a first page that is given again for its own last key is read forever.
-/

namespace KV

variable {A B : Type} (key : A → B) (page : Option B → List A)

/-- The pages up to the first empty one; `none` when the fuel runs out. -/
def readPages : ℕ → Option B → Option (List (List A))
  | 0, _ => none
  | fuel + 1, last =>
    match (page last).getLast? with
    | none => some [page last]
    | some e => (readPages fuel (some (key e))).map (page last :: ·)

/-- Behind the last key of a page, which is the `n`-th entry at the earliest or the last one of the list, a page
continues the list, at most `n` entries far. -/
def Resumes (n : ℕ) (l : List A) : Prop :=
  ∀ l₁ e l₂, l = l₁ ++ e :: l₂ → n ≤ l₁.length + 1 ∨ l₂ = [] → page (some (key e)) = l₂.take n

variable {key page}

theorem Resumes.drop {n : ℕ} {l : List A} (h : Resumes key page n l) (m : ℕ) :
    Resumes key page n (l.drop m) := by
  intro l₁ e l₂ heq hend
  refine h (l.take m ++ l₁) e l₂ ?_ (hend.imp_left fun hn => ?_)
  · rw [List.append_assoc, ← heq, List.take_append_drop]
  · rw [List.length_append]
    omega

theorem getLast?_take {n : ℕ} (hn : 0 < n) {l : List A} (hl : l ≠ []) :
    ∃ l₁ e, (l.take n).getLast? = some e ∧ l = l₁ ++ e :: l.drop n ∧
      (n ≤ l₁.length + 1 ∨ l.drop n = []) := by
  have hne : l.take n ≠ [] := by
    rw [ne_eq, List.take_eq_nil_iff, not_or]
    exact ⟨Nat.ne_of_gt hn, hl⟩
  refine ⟨(l.take n).dropLast, (l.take n).getLast hne, List.getLast?_eq_some_getLast hne, ?_, ?_⟩
  · rw [← List.singleton_append, ← List.append_assoc, List.dropLast_append_getLast hne, List.take_append_drop]
  · rw [List.length_dropLast, List.length_take, List.drop_eq_nil_iff]
    omega

/-- **Pages that resume where the page before ended** are the list. -/
theorem exists_readPages {n : ℕ} (hn : 0 < n) {l : List A} {last : Option B} (hfirst : page last = l.take n)
    (hnext : Resumes key page n l) :
    ∃ fuel pages, readPages key page fuel last = some pages ∧ pages.flatten = l := by
  induction hk : l.length using Nat.strongRecOn generalizing l last with
  | ind k ih =>
    rcases eq_or_ne l [] with rfl | hl
    · refine ⟨1, [page last], ?_, by simp [hfirst]⟩
      rw [readPages, hfirst, List.take_nil]
      rfl
    · obtain ⟨l₁, e, hlast, hsplit, hend⟩ := getLast?_take hn hl
      have hlen : (l.drop n).length < k := by
        have hpos := List.length_pos_of_ne_nil hl
        rw [List.length_drop]
        omega
      obtain ⟨fuel, pages, hread, hflat⟩ := ih _ hlen (hnext l₁ e _ hsplit hend) (hnext.drop n) rfl
      refine ⟨fuel + 1, page last :: pages, ?_, ?_⟩
      · rw [readPages, hfirst, hlast]
        dsimp only
        rw [hread]
        rfl
      · rw [List.flatten_cons, hflat, hfirst, List.take_append_drop]

theorem getLast?_readPages {fuel : ℕ} {last : Option B} {pages : List (List A)}
    (h : readPages key page fuel last = some pages) : pages.getLast? = some [] := by
  induction fuel generalizing last pages with
  | zero => cases h
  | succ fuel ih =>
    rw [readPages] at h
    cases hlast : (page last).getLast? with
    | none =>
      rw [hlast] at h
      obtain rfl := Option.some.inj h
      rw [List.getLast?_eq_none_iff.mp hlast]
      rfl
    | some e =>
      rw [hlast] at h
      obtain ⟨pages', hread, rfl⟩ := Option.map_eq_some_iff.mp h
      rw [List.getLast?_cons, ih hread]
      rfl

/-- **A page that is given again behind its own last key** is read forever. -/
theorem readPages_eq_none {last : Option B} {e : A} (hpage : (page last).getLast? = some e)
    (hagain : page (some (key e)) = page last) (fuel : ℕ) : readPages key page fuel last = none := by
  have hself : ∀ fuel, readPages key page fuel (some (key e)) = none := by
    intro fuel
    induction fuel with
    | zero => rfl
    | succ fuel ih =>
      rw [readPages, hagain, hpage]
      dsimp only
      rw [ih]
      rfl
  cases fuel with
  | zero => rfl
  | succ fuel =>
    rw [readPages, hpage]
    dsimp only
    rw [hself]
    rfl

end KV
