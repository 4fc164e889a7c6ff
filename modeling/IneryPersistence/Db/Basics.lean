import IneryPersistence.Lib.BigEndian

/-!
# Bytes, serialization and emptiness

* `Bytes`, ordered bytewise like the keys of LevelDB;
* `Serial`, `LawfulSerial`, `SameOrder`: writing to and reading from a `CDataStream`;
* `DbUtil`, `LawfulDbUtil`, `makeEmptyValue`: the functions of `db_util`;
* `live`: a value that is empty counts as absent;
* `andThen`: the sequence `a && b` of two functions that report success.
-/

namespace Inery

open KV

abbrev Byte := Fin 256

abbrev Bytes := List Byte

/-- The bytes of a string literal. -/
def bytesOf (s : String) : Bytes := s.toList.map fun c => Fin.ofNat 256 c.toNat

/-- `stream << a` appends `ser a`; `stream >> a` takes a value off the front, or throws. -/
class Serial (α : Type) where
  ser : α → Bytes
  unser : Bytes → Option (α × Bytes)

export Serial (ser unser)

/-- What is written is read back. -/
class LawfulSerial (α : Type) [Serial α] : Prop where
  unser_ser : ∀ a : α, unser (ser a) = some (a, [])

theorem ser_injective {α : Type} [Serial α] [LawfulSerial α] : Function.Injective (ser (α := α)) :=
  fun a b h => by
    have hab := LawfulSerial.unser_ser a
    rw [h, LawfulSerial.unser_ser b] at hab
    simpa [eq_comm] using hab

/-- `operator<` of the keys agrees with the byte order of their serializations. -/
def SameOrder (K : Type) [LinearOrder K] [Serial K] : Prop := ∀ a b : K, a < b ↔ ser a < ser b

/-- `db_util::IsEmpty`, `db_util::SetEmpty` and the default constructor of a type. -/
class DbUtil (α : Type) where
  dflt : α
  isEmpty : α → Bool
  setEmpty : α → α

export DbUtil (isEmpty setEmpty)

/-- A value that was set empty is empty. -/
class LawfulDbUtil (α : Type) [DbUtil α] : Prop where
  isEmpty_setEmpty : ∀ a : α, isEmpty (setEmpty a) = true

/-- `db_util::MakeEmptyValue`. -/
def makeEmptyValue (α : Type) [DbUtil α] : α := setEmpty DbUtil.dflt

/-- A stored value, an empty one counting as absent. -/
def live {V : Type} [DbUtil V] (o : Option V) : Option V := o.filter fun v => !isEmpty v

section Live

variable {V : Type} [DbUtil V]

@[simp] theorem live_none : live (none : Option V) = none := rfl

theorem live_some (v : V) : live (some v) = if isEmpty v then none else some v := by
  unfold live
  cases h : isEmpty v <;> simp [Option.filter, h]

theorem live_of_isEmpty {v : V} (h : isEmpty v = true) : live (some v) = none := by simp [live_some, h]

theorem live_of_not_isEmpty {v : V} (h : isEmpty v = false) : live (some v) = some v := by
  simp [live_some, h]

theorem live_eq_some_iff {o : Option V} {v : V} : live o = some v ↔ o = some v ∧ isEmpty v = false := by
  simp [live, Option.filter_eq_some_iff]

theorem live_eq_none_iff {o : Option V} : live o = none ↔ ∀ v ∈ o, isEmpty v = true := by
  cases o with
  | none => simp
  | some v => cases he : isEmpty v <;> simp [live_some, he]

@[simp] theorem live_live (o : Option V) : live (live o) = live o := by
  cases o with
  | none => rfl
  | some v => cases h : isEmpty v <;> simp [live_some, h]

@[simp] theorem live_makeEmptyValue [LawfulDbUtil V] : live (some (makeEmptyValue V)) = none :=
  live_of_isEmpty (LawfulDbUtil.isEmpty_setEmpty _)

end Live

/-- `a && b`, where `b` acts on what `a` leaves. -/
def andThen {S : Type} (r : Bool × S) (f : S → Bool × S) : Bool × S := if r.1 then f r.2 else r

@[simp] theorem andThen_true {S : Type} (s : S) (f : S → Bool × S) : andThen (true, s) f = f s := rfl

theorem andThen_keeps {S : Type} {P : S → Prop} {r : Bool × S} {f : S → Bool × S} (hr : P r.2)
    (hf : ∀ s, P s → P (f s).2) : P (andThen r f).2 := by
  unfold andThen
  split_ifs
  · exact hf _ hr
  · exact hr

/-! ## `std::optional` -/

instance {α : Type} : DbUtil (Option α) where
  dflt := none
  isEmpty v := v.isNone
  setEmpty _ := none

instance {α : Type} : LawfulDbUtil (Option α) := ⟨fun _ => rfl⟩

/-! ## `uint8_t` -/

instance : Serial Byte where
  ser a := [a]
  unser
    | [] => none
    | a :: rest => some (a, rest)

instance : LawfulSerial Byte := ⟨fun _ => rfl⟩

instance : DbUtil Byte where
  dflt := 0
  isEmpty a := a == 0
  setEmpty _ := 0

instance : LawfulDbUtil Byte := ⟨fun _ => rfl⟩

end Inery
