import IneryPersistence.Block.Serializers
import Mathlib.Data.UInt

/-!
# Numbers and slices as bytes

* `EncodeFixed32`, `DecodeFixed32`, `EncodeFixed64`, `DecodeFixed64`: a fixed width, lowest byte first;
* `EncodeVarint32`, `GetVarint32Ptr`: seven bits in a byte, **`getVarint32Ptr_encodeVarint32`**;
* `PutLengthPrefixedSlice`, `GetLengthPrefixedSlice`, **`getLengthPrefixedSlice_put`**.
-/

namespace Inery.Leveldb

open KV LittleEndian

/-! ## Fixed width -/

def EncodeFixed32 (value : UInt32) : Bytes := littleEndian 4 value.toNat

/-- The first four bytes. -/
def DecodeFixed32 (p : Bytes) : UInt32 := UInt32.ofNat (ofBigEndian (p.take 4).reverse)

def EncodeFixed64 (value : UInt64) : Bytes := littleEndian 8 value.toNat

/-- The first eight bytes. -/
def DecodeFixed64 (p : Bytes) : UInt64 := UInt64.ofNat (ofBigEndian (p.take 8).reverse)

theorem length_littleEndian (w n : ℕ) : (littleEndian w n).length = w := by
  rw [littleEndian, List.length_reverse, length_bigEndian]

@[simp] theorem length_encodeFixed32 (value : UInt32) : (EncodeFixed32 value).length = 4 :=
  length_littleEndian 4 _

@[simp] theorem length_encodeFixed64 (value : UInt64) : (EncodeFixed64 value).length = 8 :=
  length_littleEndian 8 _

theorem ofBigEndian_littleEndian {w n : ℕ} (h : n < 256 ^ w) (rest : Bytes) :
    ofBigEndian ((littleEndian w n ++ rest).take w).reverse = n := by
  rw [List.take_left' (length_littleEndian w n), littleEndian, List.reverse_reverse, ofBigEndian_bigEndian h]

@[simp] theorem decodeFixed32_encodeFixed32 (value : UInt32) (rest : Bytes) :
    DecodeFixed32 (EncodeFixed32 value ++ rest) = value := by
  rw [DecodeFixed32, EncodeFixed32, ofBigEndian_littleEndian value.toNat_lt]
  simp

@[simp] theorem decodeFixed64_encodeFixed64 (value : UInt64) (rest : Bytes) :
    DecodeFixed64 (EncodeFixed64 value ++ rest) = value := by
  rw [DecodeFixed64, EncodeFixed64, ofBigEndian_littleEndian value.toNat_lt]
  simp

/-- Numbers of four bytes, one after the other. -/
def fixed32s (points : List ℕ) : Bytes := points.flatMap fun r => EncodeFixed32 (UInt32.ofNat r)

theorem length_fixed32s (points : List ℕ) : (fixed32s points).length = points.length * 4 := by
  induction points with
  | nil => rfl
  | cons p points ih =>
    rw [fixed32s] at ih ⊢
    rw [List.flatMap_cons, List.length_append, length_encodeFixed32, ih, List.length_cons]
    omega

theorem drop_fixed32s (points : List ℕ) (i : ℕ) (rest : Bytes) (hi : i ≤ points.length) :
    (fixed32s points ++ rest).drop (i * 4) = fixed32s (points.drop i) ++ rest := by
  induction points generalizing i with
  | nil =>
    obtain rfl : i = 0 := Nat.le_zero.mp hi
    rfl
  | cons p points ih =>
    cases i with
    | zero => rfl
    | succ i =>
      have hmul : (i + 1) * 4 = 4 + i * 4 := by omega
      have hrest := ih i (Nat.le_of_succ_le_succ hi)
      rw [fixed32s] at hrest ⊢
      rw [List.flatMap_cons, List.append_assoc, hmul, ← List.drop_drop, List.drop_left' (length_encodeFixed32 _),
        hrest, List.drop_succ_cons]

/-- **A number of an array** of such numbers. -/
theorem decodeFixed32_fixed32s (before : Bytes) {points : List ℕ} {i p : ℕ} (hp : points[i]? = some p)
    (hlt : p < 2 ^ 32) (rest : Bytes) :
    (DecodeFixed32 ((before ++ (fixed32s points ++ rest)).drop (before.length + i * 4))).toNat = p := by
  obtain ⟨hi, hget⟩ := List.getElem?_eq_some_iff.mp hp
  rw [← List.drop_drop, List.drop_left, drop_fixed32s _ _ _ hi.le, List.drop_eq_getElem_cons hi, hget, fixed32s,
    List.flatMap_cons, List.append_assoc, decodeFixed32_encodeFixed32, UInt32.toNat_ofNat', Nat.mod_eq_of_lt hlt]

/-! ## Seven bits in a byte -/

/-- `*(ptr++) = v | B`. -/
def moreByte (v : UInt32) : Byte := Fin.ofNat 256 (v.toNat ||| 128)

def EncodeVarint32 (v : UInt32) : Bytes :=
  if v.toNat < 2 ^ 7 then [Fin.ofNat 256 v.toNat]
  else if v.toNat < 2 ^ 14 then [moreByte v, Fin.ofNat 256 (v >>> 7).toNat]
  else if v.toNat < 2 ^ 21 then [moreByte v, moreByte (v >>> 7), Fin.ofNat 256 (v >>> 14).toNat]
  else if v.toNat < 2 ^ 28 then
    [moreByte v, moreByte (v >>> 7), moreByte (v >>> 14), Fin.ofNat 256 (v >>> 21).toNat]
  else
    [moreByte v, moreByte (v >>> 7), moreByte (v >>> 14), moreByte (v >>> 21), Fin.ofNat 256 (v >>> 28).toNat]

/-- The loop of `GetVarint32PtrFallback`; what follows the number is left. -/
def varint32Loop (result : UInt32) (shift : ℕ) : Bytes → Option (UInt32 × Bytes)
  | [] => none
  | byte :: p =>
    if shift ≤ 28 then
      if byte.val &&& 128 ≠ 0 then
        varint32Loop (result ||| UInt32.ofNat (byte.val &&& 127) <<< UInt32.ofNat shift) (shift + 7) p
      else some (result ||| UInt32.ofNat byte.val <<< UInt32.ofNat shift, p)
    else none

def GetVarint32PtrFallback (p : Bytes) : Option (UInt32 × Bytes) := varint32Loop 0 0 p

/-- A number of one byte is read at once. -/
def GetVarint32Ptr : Bytes → Option (UInt32 × Bytes)
  | [] => GetVarint32PtrFallback []
  | byte :: p =>
    if byte.val &&& 128 = 0 then some (UInt32.ofNat byte.val, p) else GetVarint32PtrFallback (byte :: p)

theorem and_128_eq_zero : ∀ b : Byte, b.val &&& 128 = 0 ↔ b.val < 128 := by decide +kernel

theorem or_128_mod (n : ℕ) : (n ||| 128) % 256 = n % 128 + 128 := by
  have hbyte : ∀ b : Byte, b.val ||| 128 = b.val % 128 + 128 := by decide +kernel
  have hmod : (n ||| 128) % 2 ^ 8 = n % 2 ^ 8 ||| 128 % 2 ^ 8 := Nat.or_mod_two_pow
  have hlow : n % 256 % 128 = n % 128 := Nat.mod_mod_of_dvd n (by decide)
  rw [← hlow]
  exact hmod.trans (hbyte ⟨n % 256, Nat.mod_lt _ (by omega)⟩)

theorem moreByte_val (v : UInt32) : (moreByte v).val = v.toNat % 128 + 128 := or_128_mod v.toNat

theorem and_127 (b : ℕ) : b &&& 127 = b % 128 := Nat.and_two_pow_sub_one_eq_mod b 7

theorem toNat_or_shiftLeft {result : UInt32} {shift d : ℕ} (hs : shift ≤ 28) (hr : result.toNat < 2 ^ shift)
    (hd : d * 2 ^ shift < 2 ^ 32) :
    (result ||| UInt32.ofNat d <<< UInt32.ofNat shift).toNat = result.toNat + 2 ^ shift * d := by
  have hd32 : d < 2 ^ 32 := lt_of_le_of_lt (Nat.le_mul_of_pos_right d (Nat.two_pow_pos shift)) hd
  rw [UInt32.toNat_or, UInt32.toNat_shiftLeft, UInt32.toNat_ofNat', UInt32.toNat_ofNat',
    Nat.mod_eq_of_lt hd32, Nat.mod_eq_of_lt (by omega : shift < 2 ^ 32), Nat.mod_eq_of_lt (by omega : shift < 32),
    Nat.shiftLeft_eq, Nat.mod_eq_of_lt hd, Nat.or_comm, Nat.mul_comm d, ← Nat.two_pow_add_eq_or_of_lt hr,
    Nat.add_comm]

theorem toNat_shiftRight (v : UInt32) {s : ℕ} (hs : s ≤ 28) : (v >>> UInt32.ofNat s).toNat = v.toNat / 2 ^ s := by
  rw [UInt32.toNat_shiftRight, UInt32.toNat_ofNat', Nat.mod_eq_of_lt (by omega : s < 2 ^ 32),
    Nat.mod_eq_of_lt (by omega : s < 32), Nat.shiftRight_eq_div_pow]

theorem varint32Loop_more {v result : UInt32} {s : ℕ} (hs : s ≤ 21) (hr : result.toNat = v.toNat % 2 ^ s)
    (rest : Bytes) : ∃ result' : UInt32, result'.toNat = v.toNat % 2 ^ (s + 7) ∧
      varint32Loop result s (moreByte (v >>> UInt32.ofNat s) :: rest) = varint32Loop result' (s + 7) rest := by
  have hbyte : (moreByte (v >>> UInt32.ofNat s)).val = v.toNat / 2 ^ s % 128 + 128 := by
    rw [moreByte_val, toNat_shiftRight v (by omega)]
  have hlt : v.toNat / 2 ^ s % 128 < 128 := Nat.mod_lt _ (by omega)
  have hmore : (moreByte (v >>> UInt32.ofNat s)).val &&& 128 ≠ 0 := by
    rw [ne_eq, and_128_eq_zero]
    omega
  have hlow : (moreByte (v >>> UInt32.ofNat s)).val &&& 127 = v.toNat / 2 ^ s % 128 := by
    rw [and_127, hbyte]
    omega
  have hpow : v.toNat / 2 ^ s % 128 * 2 ^ s < 2 ^ 32 := calc
    _ < 128 * 2 ^ s := Nat.mul_lt_mul_of_pos_right hlt (Nat.two_pow_pos s)
    _ ≤ 128 * 2 ^ 21 := Nat.mul_le_mul_left _ (Nat.pow_le_pow_right (by omega) hs)
    _ < 2 ^ 32 := by decide
  refine ⟨_, ?_, by rw [varint32Loop, if_pos (by omega), if_pos hmore, hlow]⟩
  rw [toNat_or_shiftLeft (by omega) (hr ▸ Nat.mod_lt _ (Nat.two_pow_pos s)) hpow, hr, Nat.pow_add, Nat.mod_mul]

theorem varint32Loop_last {v result : UInt32} {s : ℕ} (hs : s ≤ 28) (hr : result.toNat = v.toNat % 2 ^ s)
    (hv : v.toNat / 2 ^ s < 128) (rest : Bytes) :
    varint32Loop result s (Fin.ofNat 256 (v >>> UInt32.ofNat s).toNat :: rest) = some (v, rest) := by
  have hbyte : (Fin.ofNat 256 (v >>> UInt32.ofNat s).toNat : Byte).val = v.toNat / 2 ^ s := by
    rw [toNat_shiftRight v hs]
    exact Nat.mod_eq_of_lt (by omega)
  have hlast : ¬ (Fin.ofNat 256 (v >>> UInt32.ofNat s).toNat : Byte).val &&& 128 ≠ 0 := by
    rw [not_not, and_128_eq_zero, hbyte]
    exact hv
  have hpow : v.toNat / 2 ^ s * 2 ^ s < 2 ^ 32 := lt_of_le_of_lt (Nat.div_mul_le_self _ _) v.toNat_lt
  rw [varint32Loop, if_pos hs, if_neg hlast, hbyte]
  congr 2
  refine UInt32.toNat_inj.mp ?_
  rw [toNat_or_shiftLeft hs (hr ▸ Nat.mod_lt _ (Nat.two_pow_pos s)) hpow, hr, Nat.mod_add_div]

/-- The byte that is read at once is the one that the loop reads. -/
theorem getVarint32Ptr_eq (p : Bytes) : GetVarint32Ptr p = varint32Loop 0 0 p := by
  cases p with
  | nil => rfl
  | cons byte p =>
    rw [GetVarint32Ptr]
    split_ifs with h
    · have hnot : ¬ byte.val &&& 128 ≠ 0 := not_not.mpr h
      rw [varint32Loop, if_pos (by omega), if_neg hnot]
      simp
    · rfl

/-- **A number is read back.** -/
theorem getVarint32Ptr_encodeVarint32 (v : UInt32) (rest : Bytes) :
    GetVarint32Ptr (EncodeVarint32 v ++ rest) = some (v, rest) := by
  have hmax : v.toNat < 2 ^ 32 := v.toNat_lt
  have hzero : v >>> UInt32.ofNat 0 = v := by simp
  have hfirst : ∀ rest, ∃ r : UInt32, r.toNat = v.toNat % 2 ^ 7 ∧
      varint32Loop 0 0 (moreByte v :: rest) = varint32Loop r 7 rest := fun rest => by
    have h := @varint32Loop_more v 0 0 (by omega) (by simp [Nat.mod_one]) rest
    rwa [hzero] at h
  rw [getVarint32Ptr_eq, EncodeVarint32]
  split_ifs with h1 h2 h3 h4
  · have h := @varint32Loop_last v 0 0 (by omega) (by simp [Nat.mod_one])
      (by simpa using h1) rest
    rwa [hzero] at h
  · obtain ⟨r1, hr1, e1⟩ := hfirst (Fin.ofNat 256 (v >>> 7).toNat :: rest)
    exact e1.trans (varint32Loop_last (by omega) hr1 (by omega) rest)
  · obtain ⟨r1, hr1, e1⟩ := hfirst (moreByte (v >>> 7) :: Fin.ofNat 256 (v >>> 14).toNat :: rest)
    obtain ⟨r2, hr2, e2⟩ := varint32Loop_more (by omega) hr1 (Fin.ofNat 256 (v >>> 14).toNat :: rest)
    exact e1.trans (e2.trans (varint32Loop_last (by omega) hr2 (by omega) rest))
  · obtain ⟨r1, hr1, e1⟩ := hfirst
      (moreByte (v >>> 7) :: moreByte (v >>> 14) :: Fin.ofNat 256 (v >>> 21).toNat :: rest)
    obtain ⟨r2, hr2, e2⟩ := varint32Loop_more (by omega) hr1
      (moreByte (v >>> 14) :: Fin.ofNat 256 (v >>> 21).toNat :: rest)
    obtain ⟨r3, hr3, e3⟩ := varint32Loop_more (by omega) hr2 (Fin.ofNat 256 (v >>> 21).toNat :: rest)
    exact e1.trans (e2.trans (e3.trans (varint32Loop_last (by omega) hr3 (by omega) rest)))
  · obtain ⟨r1, hr1, e1⟩ := hfirst
      (moreByte (v >>> 7) :: moreByte (v >>> 14) :: moreByte (v >>> 21) :: Fin.ofNat 256 (v >>> 28).toNat :: rest)
    obtain ⟨r2, hr2, e2⟩ := varint32Loop_more (by omega) hr1
      (moreByte (v >>> 14) :: moreByte (v >>> 21) :: Fin.ofNat 256 (v >>> 28).toNat :: rest)
    obtain ⟨r3, hr3, e3⟩ := varint32Loop_more (by omega) hr2
      (moreByte (v >>> 21) :: Fin.ofNat 256 (v >>> 28).toNat :: rest)
    obtain ⟨r4, hr4, e4⟩ := varint32Loop_more (by omega) hr3 (Fin.ofNat 256 (v >>> 28).toNat :: rest)
    exact e1.trans (e2.trans (e3.trans (e4.trans (varint32Loop_last (by omega) hr4 (by omega) rest))))

/-! ## Slices with their length before them -/

def PutLengthPrefixedSlice (value : Bytes) : Bytes := EncodeVarint32 (UInt32.ofNat value.length) ++ value

/-- The slice, and what follows it. -/
def GetLengthPrefixedSlice (input : Bytes) : Option (Bytes × Bytes) :=
  (GetVarint32Ptr input).bind fun r =>
    if r.1.toNat ≤ r.2.length then some (r.2.take r.1.toNat, r.2.drop r.1.toNat) else none

/-- **A slice is read back**, when its length is a number of 32 bits. -/
theorem getLengthPrefixedSlice_put {value : Bytes} (h : value.length < 2 ^ 32) (rest : Bytes) :
    GetLengthPrefixedSlice (PutLengthPrefixedSlice value ++ rest) = some (value, rest) := by
  have hlen : (UInt32.ofNat value.length).toNat = value.length := by
    rw [UInt32.toNat_ofNat', Nat.mod_eq_of_lt h]
  rw [GetLengthPrefixedSlice, PutLengthPrefixedSlice, List.append_assoc, getVarint32Ptr_encodeVarint32,
    Option.bind_some, hlen, if_pos (by simp), List.take_left, List.drop_left]

theorem length_varint32Loop {result v : UInt32} {shift : ℕ} {p rest : Bytes}
    (h : varint32Loop result shift p = some (v, rest)) : rest.length < p.length := by
  induction p generalizing result shift with
  | nil => cases h
  | cons byte p ih =>
    rw [varint32Loop] at h
    split_ifs at h with hs hb
    · exact Nat.lt_succ_of_lt (ih h)
    · obtain ⟨-, rfl⟩ := Prod.mk.inj (Option.some.inj h)
      exact Nat.lt_succ_self _

theorem length_getLengthPrefixedSlice {input value rest : Bytes}
    (h : GetLengthPrefixedSlice input = some (value, rest)) : rest.length < input.length := by
  obtain ⟨r, hr, h⟩ := Option.bind_eq_some_iff.mp h
  rw [getVarint32Ptr_eq] at hr
  split_ifs at h
  obtain ⟨-, rfl⟩ := Prod.mk.inj (Option.some.inj h)
  rw [List.length_drop]
  exact lt_of_le_of_lt (Nat.sub_le _ _) (length_varint32Loop hr)

end Inery.Leveldb
