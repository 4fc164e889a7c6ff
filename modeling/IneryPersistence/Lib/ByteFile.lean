import Mathlib.Data.List.Infix
import Mathlib.Data.List.TakeDrop
import Mathlib.Tactic.Common

/-!
# Files of bytes

* `writeAt`: data written at a position, over what is there and past a gap that is filled up;
* `HoldsAt`: the data that a file has at a position;
* `RangesApart`: two ranges of a file that do not meet;
* **`holdsAt_writeAt_self`**, **`HoldsAt.writeAt`**: what a write puts into the file, and what it leaves;
* `HoldsAt.append_iff`: data that was written in parts.
-/

namespace KV

variable {B : Type} (pad : B)

/-- Data at a position. A gap between the end of the file and the position is filled with `pad`. -/
def writeAt (file : List B) (pos : ℕ) (data : List B) : List B :=
  file.take pos ++ (List.replicate (pos - file.length) pad ++ (data ++ file.drop (pos + data.length)))

/-- The file has the data at the position. -/
def HoldsAt (file : List B) (pos : ℕ) (data : List B) : Prop := data <+: file.drop pos

/-- Two ranges of a file, given by their first positions and their lengths, do not meet. -/
def RangesApart (pos len pos' len' : ℕ) : Prop := pos + len ≤ pos' ∨ pos' + len' ≤ pos

variable {pad} {file data data' : List B} {pos pos' : ℕ}

theorem drop_writeAt_self (file data : List B) (pos : ℕ) :
    (writeAt pad file pos data).drop pos = data ++ file.drop (pos + data.length) := by
  have hlen : (file.take pos ++ List.replicate (pos - file.length) pad).length = pos := by
    rw [List.length_append, List.length_take, List.length_replicate]
    omega
  rw [writeAt, ← List.append_assoc, List.drop_left' hlen]

theorem drop_writeAt (h : pos' + data.length ≤ pos) : (writeAt pad file pos' data).drop pos = file.drop pos := by
  obtain ⟨k, rfl⟩ := Nat.exists_eq_add_of_le h
  have hself : ((writeAt pad file pos' data).drop pos').drop (data.length + k) =
      (data ++ file.drop (pos' + data.length)).drop (data.length + k) := by rw [drop_writeAt_self]
  rw [List.drop_drop, List.drop_length_add_append, List.drop_drop, ← Nat.add_assoc] at hself
  exact hself

/-- **A write puts its data** at the position. -/
theorem holdsAt_writeAt_self (file : List B) (pos : ℕ) (data : List B) :
    HoldsAt (writeAt pad file pos data) pos data := by
  rw [HoldsAt, drop_writeAt_self]
  exact List.prefix_append _ _

/-- **A write leaves the data** of a range that it does not meet. -/
theorem HoldsAt.writeAt (h : HoldsAt file pos data) (hapart : RangesApart pos data.length pos' data'.length) :
    HoldsAt (writeAt pad file pos' data') pos data := by
  rcases hapart with hbefore | hbehind
  · have htake : data <+: (file.take pos').drop pos := by
      rw [List.drop_take, List.prefix_take_iff]
      exact ⟨h, by omega⟩
    exact htake.trans ((List.prefix_append _ _).drop pos)
  · rwa [HoldsAt, drop_writeAt hbehind]

theorem HoldsAt.append_iff : HoldsAt file pos (data ++ data') ↔
    HoldsAt file pos data ∧ HoldsAt file (pos + data.length) data' := by
  unfold HoldsAt
  constructor
  · intro h
    refine ⟨(List.prefix_append _ _).trans h, ?_⟩
    have hdrop := h.drop data.length
    rwa [List.drop_left, List.drop_drop] at hdrop
  · rintro ⟨⟨t, ht⟩, h'⟩
    rw [← List.drop_drop, ← ht, List.drop_left] at h'
    rw [← ht]
    exact List.prefix_append_right_inj data |>.mpr h'

end KV
