import IneryPersistence.Db.Tuple
import Mathlib.Data.Finset.Sort

/-!
# Containers in a stream

A container is written as the number of its elements followed by the elements, a set in ascending order.

* `serList`, `unserList`: a list of elements, and **`unserList_append`**;
* a `std::set` as a `Finset`: written, read back, and empty when it has no element.
-/

namespace Inery

open KV

section List

variable {α : Type} [Serial α]

/-- Elements one after the other. -/
def serList (l : List α) : Bytes := l.flatMap ser

/-- As many elements as the number says. -/
def unserList : ℕ → Bytes → Option (List α × Bytes)
  | 0, bytes => some ([], bytes)
  | n + 1, bytes => (unser (α := α) bytes).bind fun a =>
    (unserList n a.2).map fun r => (a.1 :: r.1, r.2)

theorem unserList_append [StreamSerial α] (l : List α) (rest : Bytes) :
    unserList l.length (serList l ++ rest) = some (l, rest) := by
  induction l with
  | nil => rfl
  | cons a l ih =>
    unfold serList at ih ⊢
    rw [List.length_cons, List.flatMap_cons, List.append_assoc, unserList, StreamSerial.unser_append,
      Option.bind_some, ih, Option.map_some]

end List

/-! ## `std::set` -/

section Set

variable {α : Type}

instance : DbUtil (Finset α) where
  dflt := ∅
  isEmpty s := s.card == 0
  setEmpty _ := ∅

instance : LawfulDbUtil (Finset α) := ⟨fun _ => rfl⟩

theorem isEmpty_finset_iff (s : Finset α) : isEmpty s = true ↔ s = ∅ := by
  show (s.card == 0) = true ↔ s = ∅
  rw [beq_iff_eq, Finset.card_eq_zero]

theorem getD_live_some (s : Finset α) : (live (some s)).getD ∅ = s := by
  cases h : isEmpty s with
  | true => rw [live_of_isEmpty h, Option.getD_none, (isEmpty_finset_iff s).mp h]
  | false => rw [live_of_not_isEmpty h, Option.getD_some]

variable [CompactSize] [LinearOrder α] [Serial α]

instance : Serial (Finset α) where
  ser s := CompactSize.write s.card ++ serList s.sort
  unser bytes := (CompactSize.read bytes).bind fun n =>
    (unserList n.1 n.2).map fun r => (r.1.toFinset, r.2)

instance [LawfulCompactSize] [StreamSerial α] : StreamSerial (Finset α) where
  unser_append s rest := by
    have hread := unserList_append s.sort rest
    rw [Finset.length_sort] at hread
    simp only [ser, unser, List.append_assoc, LawfulCompactSize.read_write, Option.bind_some]
    rw [hread, Option.map_some, Finset.sort_toFinset]

end Set

end Inery
