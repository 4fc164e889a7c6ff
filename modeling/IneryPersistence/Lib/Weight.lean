import IneryPersistence.Lib.SortedMap
import Mathlib.Data.UInt
import Mathlib.Algebra.Order.BigOperators.Group.List

/-!
# The weight of a map

* `SortedMap.weight`: the sum of what its entries weigh;
* **`weight_insert`**: an insertion adds the new entry, and takes off the one that it replaces;
* `toNat_sum`: a sum of machine integers that does not overflow.
-/

namespace KV

namespace SortedMap

variable {K V : Type} [LinearOrder K] (f : K → V → ℕ)

/-- The sum of the weights of all entries. -/
def weight (m : SortedMap K V) : ℕ := (m.entries.map fun e => f e.1 e.2).sum

@[simp] theorem weight_empty : (∅ : SortedMap K V).weight f = 0 := rfl

theorem sum_insertEntry (k : K) (v : V) {l : List (K × V)} (hl : Ascending l) :
    ((insertEntry k v l).map fun e => f e.1 e.2).sum + (lookup k l).elim 0 (f k) =
      (l.map fun e => f e.1 e.2).sum + f k v := by
  induction l with
  | nil => simp [insertEntry, lookup]
  | cons e l ih =>
    obtain ⟨a, w⟩ := e
    rw [insertEntry, lookup_cons]
    split_ifs with hlt heq heq
    · exact absurd heq hlt.ne
    · have hnone : lookup k l = none := lookup_eq_none fun e he => (hlt.trans (hl.head_lt e he)).ne
      simp only [hnone, List.map_cons, List.sum_cons, Option.elim]
      omega
    · subst heq
      simp only [List.map_cons, List.sum_cons, Option.elim]
      omega
    · have hih := ih hl.tail
      simp only [List.map_cons, List.sum_cons]
      omega

/-- **An insertion** adds the weight of the entry, and takes off that of the one it replaces. -/
theorem weight_insert (m : SortedMap K V) (k : K) (v : V) :
    (m.insert k v).weight f + (m.find? k).elim 0 (f k) = m.weight f + f k v :=
  sum_insertEntry f k v m.ascending

theorem weight_insert_of_none {m : SortedMap K V} {k : K} (h : m.find? k = none) (v : V) :
    (m.insert k v).weight f = m.weight f + f k v := by
  have hinsert := m.weight_insert f k v
  rw [h] at hinsert
  exact hinsert

theorem weight_insert_of_some {m : SortedMap K V} {k : K} {w : V} (h : m.find? k = some w) (v : V) :
    (m.insert k v).weight f + f k w = m.weight f + f k v := by
  have hinsert := m.weight_insert f k v
  rw [h] at hinsert
  exact hinsert

theorem le_weight {m : SortedMap K V} {k : K} {v : V} (h : m.find? k = some v) : f k v ≤ m.weight f :=
  List.single_le_sum (fun _ _ => Nat.zero_le _) _ (List.mem_map_of_mem (find?_eq_some_iff.mp h))

end SortedMap

/-- **A sum of machine integers** is the sum of the numbers as long as that fits. -/
theorem toNat_sum {l : List UInt32} (h : (l.map UInt32.toNat).sum < 2 ^ 32) :
    l.sum.toNat = (l.map UInt32.toNat).sum := by
  induction l with
  | nil => rfl
  | cons n l ih =>
    rw [List.map_cons, List.sum_cons] at h ⊢
    have hl := ih (by omega)
    rw [List.sum_cons, UInt32.toNat_add, hl]
    exact Nat.mod_eq_of_lt h

end KV
