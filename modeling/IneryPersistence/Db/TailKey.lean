import IneryPersistence.Db.Tuple

/-!
# The raw last element of a key

A `CDBTailKey` is written without its length, so that it ends where its record's key ends.

* `CDBTailKey`, `startWith`: byte strings up to a maximal size, and the partial match on them;
* `sameOrder_tailKey`: they are ordered like their serialization;
* the pair of an element that is framed and a tail key is read back, as `LawfulSerial` says.
-/

namespace Inery

open KV

/-- `CDBTailKey`, whose constructor and deserializer keep it within `maxKeySize`. -/
abbrev CDBTailKey (maxKeySize : ℕ) := {key : Bytes // key.length ≤ maxKeySize}

namespace CDBTailKey

variable {n : ℕ}

/-- `StartWith`. -/
def startWith (key : CDBTailKey n) (keyPrefix : Bytes) : Bool := keyPrefix.isPrefixOf key.1

instance : Serial (CDBTailKey n) where
  ser key := key.1
  unser s := if h : s.length ≤ n then some (⟨s, h⟩, []) else none

instance : LawfulSerial (CDBTailKey n) := ⟨fun key => dif_pos key.2⟩

instance : DbUtil (CDBTailKey n) where
  dflt := ⟨[], Nat.zero_le n⟩
  isEmpty key := key.1.isEmpty
  setEmpty _ := ⟨[], Nat.zero_le n⟩

instance : LawfulDbUtil (CDBTailKey n) := ⟨fun _ => rfl⟩

theorem sameOrder_tailKey : SameOrder (CDBTailKey n) := fun _ _ => Iff.rfl

instance : LeastEmpty (CDBTailKey n) where
  makeEmptyValue_le key := not_lt.mp (List.not_lt_nil key.1)
  le_of_isEmpty := fun ⟨e, _⟩ he key => by
    obtain rfl : e = [] := List.isEmpty_iff.mp he
    exact not_lt.mp (List.not_lt_nil key.1)

end CDBTailKey

/-- Only the last element of a pair may run to the end of the key. -/
instance {A B : Type} [Serial A] [StreamSerial A] [Serial B] [LawfulSerial B] : LawfulSerial (A ×ₗ B) where
  unser_ser k := by
    simp only [ser, unser]
    rw [StreamSerial.unser_append]
    simp [LawfulSerial.unser_ser]

end Inery
