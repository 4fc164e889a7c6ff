import IneryPersistence.Lib.SortedMap

/-!
# Timelines

The entries of a sorted map from times are the changes of a value that stays what it is in between.

* `valueAt`: the value at a time, and `valueAt_append_of_le`: after changes that are past;
* **`valueAt_of_latest`**, `valueAt_of_lt`: the value of the latest change up to the time, if there is one;
* **`valueAt_insert`**: a change that is not before any other one.
-/

namespace KV

variable {T V : Type} [LinearOrder T]

theorem Ascending.lt_of_mem_dropWhile {l : List (T × V)} (hl : Ascending l) {b : T} {a : T × V}
    (h : a ∈ l.dropWhile fun e => decide (e.1 ≤ b)) : b < a.1 := by
  have hpair : l.Pairwise fun e e' => decide (e'.1 ≤ b) = true → decide (e.1 ≤ b) = true :=
    hl.imp fun hlt h => decide_eq_true (hlt.le.trans (of_decide_eq_true h))
  rw [(takeWhile_eq_filter hpair).2] at h
  simpa using (List.mem_filter.mp h).2

/-- The value after the changes up to `t`, where `d` is that before the first one. -/
def valueAt : List (T × V) → V → T → V
  | [], d, _ => d
  | (s, v) :: rest, d, t => if s ≤ t then valueAt rest v t else d

@[simp] theorem valueAt_nil (d : V) (t : T) : valueAt [] d t = d := rfl

theorem valueAt_cons (s : T) (v : V) (rest : List (T × V)) (d : V) (t : T) :
    valueAt ((s, v) :: rest) d t = if s ≤ t then valueAt rest v t else d := rfl

theorem valueAt_append_of_le {l : List (T × V)} {t : T} (h : ∀ e ∈ l, e.1 ≤ t) (l' : List (T × V)) (d : V) :
    valueAt (l ++ l') d t = valueAt l' ((l.getLast?.map Prod.snd).getD d) t := by
  induction l generalizing d with
  | nil => rfl
  | cons e rest ih =>
    obtain ⟨s, v⟩ := e
    rw [List.cons_append, valueAt_cons, if_pos (h _ List.mem_cons_self),
      ih (fun e he => h e (List.mem_cons_of_mem _ he)), List.getLast?_cons]
    cases rest.getLast? <;> rfl

theorem valueAt_of_lt {l : List (T × V)} {t : T} (h : ∀ e ∈ l, t < e.1) (d : V) : valueAt l d t = d := by
  cases l with
  | nil => rfl
  | cons e rest => exact if_neg (h e List.mem_cons_self).not_ge

/-- **The latest change** up to a time holds at that time. -/
theorem valueAt_of_latest {l : List (T × V)} (hl : Ascending l) {s t : T} {v : V} (hmem : (s, v) ∈ l)
    (hst : s ≤ t) (hlatest : ∀ e ∈ l, e.1 ≤ t → e.1 ≤ s) (d : V) : valueAt l d t = v := by
  induction l generalizing d with
  | nil => exact absurd hmem List.not_mem_nil
  | cons e rest ih =>
    obtain ⟨a, w⟩ := e
    have hrest : ∀ e ∈ rest, e.1 ≤ t → e.1 ≤ s := fun e he => hlatest e (List.mem_cons_of_mem _ he)
    rcases List.mem_cons.mp hmem with heq | hmem
    · -- all later changes are in the future
      obtain ⟨rfl, rfl⟩ := Prod.mk.inj heq
      rw [valueAt_cons, if_pos hst]
      refine valueAt_of_lt (fun e he => ?_) v
      by_contra hle
      exact (hl.head_lt e he).not_ge (hrest e he (not_lt.mp hle))
    · have has : a ≤ t := (hl.head_lt _ hmem).le.trans hst
      rw [valueAt_cons, if_pos has]
      exact ih hl.tail hmem hrest w

/-- **A change that is not before any other one** holds from then on. -/
theorem valueAt_insert {m : SortedMap T V} {s : T} (h : ∀ e ∈ m.entries, e.1 ≤ s) (v d : V) (t : T) :
    valueAt (m.insert s v).entries d t = if s ≤ t then v else valueAt m.entries d t := by
  have key : ∀ l : List (T × V), Ascending l → (∀ e ∈ l, e.1 ≤ s) → ∀ d,
      valueAt (SortedMap.insertEntry s v l) d t = if s ≤ t then v else valueAt l d t := by
    intro l
    induction l with
    | nil => exact fun _ _ _ => rfl
    | cons e rest ih =>
      intro hl hle d
      obtain ⟨a, w⟩ := e
      rcases (hle _ List.mem_cons_self).lt_or_eq with has | rfl
      · rw [SortedMap.insertEntry, if_neg has.not_gt, if_neg has.ne', valueAt_cons, valueAt_cons,
          ih hl.tail (fun e he => hle e (List.mem_cons_of_mem _ he)) w]
        by_cases hst : s ≤ t
        · rw [if_pos hst, if_pos hst, if_pos (has.le.trans hst)]
        · rw [if_neg hst, if_neg hst]
      · -- an entry at the same time is the last one
        have hrest : rest = [] := List.eq_nil_iff_forall_not_mem.mpr fun e he =>
          (hl.head_lt e he).not_ge (hle e (List.mem_cons_of_mem _ he))
        rw [SortedMap.insertEntry, if_neg (lt_irrefl _), if_pos rfl, hrest, valueAt_cons, valueAt_cons]
        split_ifs <;> rfl
  exact key m.entries m.ascending h d

end KV
