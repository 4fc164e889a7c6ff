import IneryPersistence.Block.Header

/-!
# Serializers of a block index record

The parameters of `Block.Header` at concrete serializers: integers of a fixed width with the lowest
byte first, and `VARINT` in base 128, where each byte but the last has its highest bit set.

* `littleEndian`, `readLittle`, **`readLittle_littleEndian`**;
* `writeVarInt`, `readVarInt`, **`readVarInt_writeVarInt`**.
-/

namespace Inery

open KV

namespace LittleEndian

/-! ## Fixed width -/

/-- The `w` lowest bytes of a number, the lowest first. -/
def littleEndian (w n : ℕ) : Bytes := (bigEndian w n).reverse

/-- A number of `w` bytes is taken off the front. -/
def readLittle (w : ℕ) (bytes : Bytes) : Option (ℕ × Bytes) :=
  if w ≤ bytes.length then some (ofBigEndian (bytes.take w).reverse, bytes.drop w) else none

theorem readLittle_littleEndian {w n : ℕ} (h : n < 256 ^ w) (rest : Bytes) :
    readLittle w (littleEndian w n ++ rest) = some (n, rest) := by
  have hlen : (littleEndian w n).length = w := by rw [littleEndian, List.length_reverse, length_bigEndian]
  rw [readLittle, if_pos (by simp [hlen]), List.take_left' hlen, List.drop_left' hlen, littleEndian,
    List.reverse_reverse, ofBigEndian_bigEndian h]

scoped instance : Serial UInt32 where
  ser n := littleEndian 4 n.toNat
  unser bytes := (readLittle 4 bytes).map fun r => (UInt32.ofNat r.1, r.2)

scoped instance : StreamSerial UInt32 where
  unser_append n rest := by
    change (readLittle 4 (littleEndian 4 n.toNat ++ rest)).map _ = _
    rw [readLittle_littleEndian n.toNat_lt]
    simp

scoped instance : Serial UInt64 where
  ser n := littleEndian 8 n.toNat
  unser bytes := (readLittle 8 bytes).map fun r => (UInt64.ofNat r.1, r.2)

scoped instance : StreamSerial UInt64 where
  unser_append n rest := by
    change (readLittle 8 (littleEndian 8 n.toNat ++ rest)).map _ = _
    rw [readLittle_littleEndian n.toNat_lt]
    simp

scoped instance : Serial Int32 where
  ser n := ser n.toUInt32
  unser bytes := (unser (α := UInt32) bytes).map fun r => (r.1.toInt32, r.2)

scoped instance : StreamSerial Int32 where
  unser_append n rest := by
    change (unser (ser n.toUInt32 ++ rest)).map _ = _
    rw [StreamSerial.unser_append]
    rfl

scoped instance : Serial IneryRegID where
  ser r := littleEndian 4 (ofLex r).1 ++ littleEndian 2 (ofLex r).2
  unser bytes := (readLittle 4 bytes).bind fun h =>
    (readLittle 2 h.2).map fun i => (toLex (Fin.ofNat _ h.1, Fin.ofNat _ i.1), i.2)

scoped instance : StreamSerial IneryRegID where
  unser_append r rest := by
    change (readLittle 4 ((littleEndian 4 (ofLex r).1 ++ littleEndian 2 (ofLex r).2) ++ rest)).bind _ = _
    rw [List.append_assoc, readLittle_littleEndian (ofLex r).1.isLt, Option.bind_some,
      readLittle_littleEndian (ofLex r).2.isLt]
    simp

/-! ## `VARINT` -/

/-- The bytes before the last one. -/
def writeHigh (n : ℕ) : Bytes :=
  if n ≤ 127 then [Fin.ofNat 256 (n + 128)]
  else writeHigh (n / 128 - 1) ++ [Fin.ofNat 256 (n % 128 + 128)]
termination_by n

/-- `WriteVarInt`; a negative number is one byte. -/
def writeVarInt (n : ℤ) : Bytes :=
  if n ≤ 127 then [Fin.ofNat 256 (n % 128).toNat]
  else writeHigh (n.toNat / 128 - 1) ++ [Fin.ofNat 256 (n.toNat % 128)]

/-- `ReadVarInt`, with `n` read so far. -/
def readVarInt (n : ℕ) : Bytes → Option (ℕ × Bytes)
  | [] => none
  | ch :: rest =>
    if 128 ≤ ch.val then readVarInt (n * 128 + ch.val % 128 + 1) rest else some (n * 128 + ch.val, rest)

theorem readVarInt_of_ge {n d : ℕ} (hd : d < 128) (rest : Bytes) :
    readVarInt n (Fin.ofNat 256 (d + 128) :: rest) = readVarInt (n * 128 + d + 1) rest := by
  have hval : ((Fin.ofNat 256 (d + 128) : Fin 256) : ℕ) = d + 128 := Nat.mod_eq_of_lt (by omega)
  rw [readVarInt, hval, if_pos (by omega), Nat.add_mod_right, Nat.mod_eq_of_lt hd]

theorem readVarInt_of_lt {n d : ℕ} (hd : d < 128) (rest : Bytes) :
    readVarInt n (Fin.ofNat 256 d :: rest) = some (n * 128 + d, rest) := by
  have hval : ((Fin.ofNat 256 d : Fin 256) : ℕ) = d := Nat.mod_eq_of_lt (by omega)
  rw [readVarInt, hval, if_neg (by omega)]

theorem readVarInt_writeHigh (n : ℕ) (rest : Bytes) :
    readVarInt 0 (writeHigh n ++ rest) = readVarInt (n + 1) rest := by
  induction n using Nat.strong_induction_on generalizing rest with
  | _ n ih =>
    rw [writeHigh]
    split_ifs with h
    · rw [List.singleton_append, readVarInt_of_ge (by omega), Nat.zero_mul, Nat.zero_add]
    · have hprev : n / 128 - 1 + 1 = n / 128 := by omega
      rw [List.append_assoc, ih _ (by omega), hprev, List.singleton_append,
        readVarInt_of_ge (Nat.mod_lt _ (by omega)), Nat.div_add_mod']

theorem readVarInt_writeVarInt {n : ℤ} (hn : 0 ≤ n) (rest : Bytes) :
    readVarInt 0 (writeVarInt n ++ rest) = some (n.toNat, rest) := by
  rw [writeVarInt]
  split_ifs with h
  · have hmod : (n % 128).toNat = n.toNat := by omega
    rw [List.singleton_append, readVarInt_of_lt (by omega), hmod, Nat.zero_mul, Nat.zero_add]
  · have hprev : n.toNat / 128 - 1 + 1 = n.toNat / 128 := by omega
    rw [List.append_assoc, readVarInt_writeHigh, hprev, List.singleton_append,
      readVarInt_of_lt (Nat.mod_lt _ (by omega)), Nat.div_add_mod']

scoped instance : VarInt where
  write := writeVarInt
  read bytes := (readVarInt 0 bytes).map fun r => ((r.1 : ℤ), r.2)

scoped instance : LawfulVarInt where
  read_write n rest hn := by
    change (readVarInt 0 (writeVarInt n ++ rest)).map _ = _
    rw [readVarInt_writeVarInt hn, Option.map_some, Int.toNat_of_nonneg hn]

/-- The version of a release. -/
scoped instance : ClientVersion := ⟨1000000⟩

end LittleEndian

end Inery
