import IneryPersistence.Db.Tuple
import IneryPersistence.Iterator.Stream

/-!
# The prefix iterator

A `CDBPrefixIterator` starts at the least key with its prefix element and is valid as long as the
iterator under it stands at a key with that element.

* `PrefixMatcher`, `commonPrefixMatcher`: the keys of a prefix element;
* `prefixIterator`: the iterator, over any other one;
* **`enumerates_prefixIterator`**: it gives what the iterator under it gives, up to the first key
  without the element.
-/

namespace Inery

open KV

/-- `MakeKeyByPrefix` and `MatchPrefix`. -/
structure PrefixMatcher (K E : Type) where
  makeKeyByPrefix : E → K
  matchPrefix : K → E → Bool

/-- The `CommonPrefixMatcher` of a pair or a tuple and its first element. -/
def commonPrefixMatcher (A B : Type) [DecidableEq A] [DbUtil B] : PrefixMatcher (A ×ₗ B) A where
  makeKeyByPrefix a := toLex (a, makeEmptyValue B)
  matchPrefix key a := get0 key = a

section Iterator

variable {K V E : Type} [DbUtil K]

/-- A `CDBPrefixIterator` over the iterator `spItImpl`. -/
def prefixIterator (m : PrefixMatcher K E) (prefixElement : E) (spItImpl : CDBBaseIterator K V) :
    CDBBaseIterator K V :=
  let first := spItImpl.seek (some (m.makeKeyByPrefix prefixElement))
  { State := spItImpl.State
    init := spItImpl.init
    first := first
    seek := fun pKey st =>
      match pKey with
      | none => first st
      | some key => if isEmpty key then first st else spItImpl.seek pKey st
    seekUpper := fun pKey st =>
      match pKey with
      | none => first st
      | some key => if isEmpty key then first st else spItImpl.seekUpper pKey st
    next := spItImpl.next
    cur := fun st => (spItImpl.cur st).filter fun e => m.matchPrefix e.1 prefixElement
    remaining := spItImpl.remaining }

/-- **The iterator gives the entries up to the first key without the prefix element.** -/
theorem enumerates_prefixIterator (m : PrefixMatcher K E) (prefixElement : E)
    {spItImpl : CDBBaseIterator K V} {st : spItImpl.State} {l : List (K × V)}
    (h : spItImpl.Enumerates st l) : (prefixIterator m prefixElement spItImpl).Enumerates st
      (l.takeWhile fun e => m.matchPrefix e.1 prefixElement) := by
  induction l generalizing st with
  | nil =>
    have hcur : spItImpl.cur st = none := h
    simp [CDBBaseIterator.Enumerates, prefixIterator, hcur]
  | cons e l ih =>
    obtain ⟨hcur, hlen, st', hnext, h'⟩ := h
    cases hm : m.matchPrefix e.1 prefixElement with
    | false =>
      rw [List.takeWhile_cons, if_neg (by simp [hm])]
      simp [CDBBaseIterator.Enumerates, prefixIterator, hcur, hm]
    | true =>
      rw [List.takeWhile_cons, if_pos hm]
      refine ⟨by simp [prefixIterator, hcur, hm], ?_, st', hnext, ih h'⟩
      exact (List.takeWhile_sublist _).length_le.trans_lt hlen

end Iterator

end Inery
