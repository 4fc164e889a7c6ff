import IneryPersistence.Db.Basics
import IneryPersistence.Lib.Lex
import Mathlib.Data.Prod.Lex

/-!
# Pairs and tuples as keys

A `std::pair` or `std::tuple` is compared lexicographically, serialized element after element, and
empty when all its elements are; `A ×ₗ B` is such a pair, and longer tuples nest to the right.

* `StreamSerial`: a value is read back off the front of what follows it;
* `CompactSize`: the length in front of a string;
* **`sameOrder_prod`**: a pair is ordered like its serialization when its elements are.
-/

namespace Inery

open KV

/-- A value is read back, and what follows it is left. -/
class StreamSerial (α : Type) [Serial α] : Prop where
  unser_append : ∀ (a : α) (rest : Bytes), unser (ser a ++ rest) = some (a, rest)

instance {α : Type} [Serial α] [StreamSerial α] : LawfulSerial α :=
  ⟨fun a => by simpa using StreamSerial.unser_append a []⟩

instance : StreamSerial Byte := ⟨fun _ _ => rfl⟩

theorem ser_append_inj {α : Type} [Serial α] [StreamSerial α] {a b : α} {s t : Bytes}
    (h : ser a ++ s = ser b ++ t) : a = b ∧ s = t := by
  have ha := StreamSerial.unser_append a s
  rw [h, StreamSerial.unser_append b t] at ha
  obtain ⟨rfl, rfl⟩ := Prod.mk.inj (Option.some.inj ha)
  exact ⟨rfl, rfl⟩

theorem eq_of_ser_isPrefix {α : Type} [Serial α] [StreamSerial α] {a b : α} {t : Bytes}
    (h : ser a <+: ser b ++ t) : a = b := by
  obtain ⟨s, hs⟩ := h
  exact (ser_append_inj hs).1

/-- The empty value is the least one. -/
class LeastEmpty (α : Type) [LinearOrder α] [DbUtil α] : Prop where
  makeEmptyValue_le : ∀ a : α, makeEmptyValue α ≤ a
  le_of_isEmpty : ∀ e : α, isEmpty e = true → ∀ a, e ≤ a

instance : LeastEmpty Byte where
  makeEmptyValue_le := Fin.zero_le
  le_of_isEmpty a ha key := by rw [eq_of_beq ha]; exact Fin.zero_le key

/-! ## Strings -/

/-- The length that a string is written with. -/
class CompactSize where
  write : ℕ → Bytes
  read : Bytes → Option (ℕ × Bytes)

/-- A length is read back, and an empty string is written as a zero byte. -/
class LawfulCompactSize [CompactSize] : Prop where
  read_write : ∀ (n : ℕ) (rest : Bytes), CompactSize.read (CompactSize.write n ++ rest) = some (n, rest)
  write_zero : CompactSize.write 0 = [0]

/-- `std::string`. -/
instance [CompactSize] : Serial Bytes where
  ser s := CompactSize.write s.length ++ s
  unser bytes := (CompactSize.read bytes).bind fun r =>
    if r.1 ≤ r.2.length then some (r.2.take r.1, r.2.drop r.1) else none

instance [CompactSize] [LawfulCompactSize] : StreamSerial Bytes where
  unser_append s rest := by
    simp only [ser, unser, List.append_assoc, LawfulCompactSize.read_write, Option.bind_some]
    rw [if_pos (by simp), List.take_left, List.drop_left]

instance : DbUtil Bytes where
  dflt := []
  isEmpty s := s.isEmpty
  setEmpty _ := []

instance : LawfulDbUtil Bytes := ⟨fun _ => rfl⟩

/-- **The empty string is written below every other one.** -/
theorem ser_nil_le [CompactSize] [LawfulCompactSize] (s : Bytes) : ser ([] : Bytes) ≤ ser s := by
  have hzero : ser ([] : Bytes) = [0] := by simp [ser, LawfulCompactSize.write_zero]
  cases h : ser s with
  | nil =>
    have hprefix : ser s <+: ser ([] : Bytes) ++ [] := h ▸ List.nil_prefix
    rw [eq_of_ser_isPrefix hprefix, hzero] at h
    exact absurd h nofun
  | cons b bytes =>
    rw [hzero, ← not_lt, List.cons_lt_cons_iff]
    rintro (hlt | ⟨-, hlt⟩)
    · exact absurd hlt (Fin.not_lt_zero b)
    · exact absurd hlt (List.not_lt_nil _)

/-! ## Pairs -/

section Prod

variable {A B C : Type}

/-- `std::get<0>`. -/
def get0 (key : A ×ₗ B) : A := (ofLex key).1

/-- `std::get<1>` of a tuple of three or more. -/
def get1 (key : A ×ₗ B ×ₗ C) : B := get0 (ofLex key).2

instance [Serial A] [Serial B] : Serial (A ×ₗ B) where
  ser k := ser (ofLex k).1 ++ ser (ofLex k).2
  unser bytes := (unser (α := A) bytes).bind fun a =>
    (unser (α := B) a.2).map fun b => (toLex (a.1, b.1), b.2)

instance [DbUtil A] [DbUtil B] : DbUtil (A ×ₗ B) where
  dflt := toLex (DbUtil.dflt, DbUtil.dflt)
  isEmpty k := isEmpty (ofLex k).1 && isEmpty (ofLex k).2
  setEmpty k := toLex (setEmpty (ofLex k).1, setEmpty (ofLex k).2)

instance [DbUtil A] [LawfulDbUtil A] [DbUtil B] [LawfulDbUtil B] : LawfulDbUtil (A ×ₗ B) :=
  ⟨fun k => Bool.and_eq_true_iff.mpr
    ⟨LawfulDbUtil.isEmpty_setEmpty (ofLex k).1, LawfulDbUtil.isEmpty_setEmpty (ofLex k).2⟩⟩

instance [Serial A] [Serial B] [StreamSerial A] [StreamSerial B] : StreamSerial (A ×ₗ B) where
  unser_append k rest := by
    simp only [ser, unser, List.append_assoc]
    change Option.bind (Serial.unser (Serial.ser (ofLex k).1 ++ _)) _ = _
    rw [StreamSerial.unser_append]
    simp [StreamSerial.unser_append]

theorem isEmpty_toLex [DbUtil A] [DbUtil B] (a : A) (b : B) :
    isEmpty (toLex (a, b)) = (isEmpty a && isEmpty b) := rfl

theorem ser_toLex [Serial A] [Serial B] (a : A) (b : B) : ser (toLex (a, b)) = ser a ++ ser b := rfl

theorem ser_append_lt [Serial A] [StreamSerial A] [LinearOrder A] (hA : SameOrder A) {a a' : A}
    (h : a < a') (s t : Bytes) : ser a ++ s < ser a' ++ t := by
  refine append_lt_append_of_lt ((hA a a').mp h) (fun hpre => ?_) s t
  rw [← List.append_nil (ser a')] at hpre
  exact h.ne (eq_of_ser_isPrefix hpre)

/-- **A pair is ordered like its serialization** when its elements are. -/
theorem sameOrder_prod [Serial A] [StreamSerial A] [LinearOrder A] [Serial B] [LinearOrder B]
    (hA : SameOrder A) (hB : SameOrder B) : SameOrder (A ×ₗ B) := by
  intro k k'
  obtain ⟨a, b⟩ := k
  obtain ⟨a', b'⟩ := k'
  rw [show ((a, b) : A ×ₗ B) = toLex (a, b) from rfl, show ((a', b') : A ×ₗ B) = toLex (a', b') from rfl,
    Prod.Lex.toLex_lt_toLex, ser_toLex, ser_toLex]
  rcases lt_trichotomy a a' with h | rfl | h
  · exact iff_of_true (.inl h) (ser_append_lt hA h _ _)
  · rw [append_lt_append_iff, ← hB b b']
    simp
  · exact iff_of_false (fun hor => hor.elim h.not_gt fun heq => h.ne' heq.1)
      (ser_append_lt hA h _ _).not_gt

theorem ser_toLex_le [Serial A] [StreamSerial A] [Serial B] {a a' : A} {b b' : B}
    (ha : ser a ≤ ser a') (hb : ser b ≤ ser b') : ser (toLex (a, b)) ≤ ser (toLex (a', b')) := by
  rw [ser_toLex, ser_toLex]
  by_cases hpre : ser a <+: ser a' ++ []
  · obtain rfl := eq_of_ser_isPrefix hpre
    exact (append_le_append_iff _).mpr hb
  · rw [List.append_nil] at hpre
    have hne : ser a ≠ ser a' := fun heq => hpre (heq ▸ List.prefix_rfl)
    exact (append_lt_append_of_lt (lt_of_le_of_ne ha hne) hpre _ _).le

instance [LinearOrder A] [DbUtil A] [LeastEmpty A] [LinearOrder B] [DbUtil B] [LeastEmpty B] :
    LeastEmpty (A ×ₗ B) where
  makeEmptyValue_le := fun ⟨a, b⟩ => Prod.Lex.toLex_le_toLex'.mpr
    ⟨LeastEmpty.makeEmptyValue_le a, fun _ => LeastEmpty.makeEmptyValue_le b⟩
  le_of_isEmpty := fun ⟨e, e'⟩ he ⟨a, b⟩ => by
    obtain ⟨h, h'⟩ := Bool.and_eq_true_iff.mp he
    exact Prod.Lex.toLex_le_toLex'.mpr
      ⟨LeastEmpty.le_of_isEmpty e h a, fun _ => LeastEmpty.le_of_isEmpty e' h' b⟩

theorem get0_le [LinearOrder A] [LinearOrder B] {key key' : A ×ₗ B} (h : key ≤ key') :
    get0 key ≤ get0 key' := by
  obtain ⟨a, b⟩ := key
  obtain ⟨a', b'⟩ := key'
  exact (Prod.Lex.toLex_le_toLex'.mp h).1

theorem get1_le [LinearOrder A] [LinearOrder B] [LinearOrder C] {key key' : A ×ₗ B ×ₗ C}
    (h : key ≤ key') (h₀ : get0 key = get0 key') : get1 key ≤ get1 key' := by
  obtain ⟨a, t⟩ := key
  obtain ⟨a', t'⟩ := key'
  exact get0_le ((Prod.Lex.toLex_le_toLex'.mp h).2 h₀)

end Prod

end Inery
