import IneryPersistence.Db.Tuple
import IneryPersistence.Lib.BigEndian

/-!
# The keys of the CDP caches

* `IneryCdpCoinPair`: two symbols, compared as strings, each serialized behind its length;
* `CFixedUInt64`, `Uint256`, `IneryRegIDKey`: numbers and account ids as parts of keys;
* `CdpRatioIndexKey`, `CdpHeightIndexKey`, `UserCdpKey`: the keys of the three indexes;
* `BigEndianKeys`: numbers written with their highest byte first, short lengths as one byte.
-/

namespace Inery

open KV

abbrev TokenSymbol := Bytes

/-- An asset and the stable coin borrowed on it. -/
structure IneryCdpCoinPair where
  assetSymbol : TokenSymbol
  scoinSymbol : TokenSymbol

namespace IneryCdpCoinPair

/-- The two symbols of a coin pair. -/
def symbols (coinPair : IneryCdpCoinPair) : TokenSymbol ×ₗ TokenSymbol :=
  toLex (coinPair.assetSymbol, coinPair.scoinSymbol)

theorem symbols_injective : Function.Injective symbols := by
  rintro ⟨a, s⟩ ⟨a', s'⟩ h
  obtain ⟨rfl, rfl⟩ := Prod.mk.inj (toLex.injective h)
  rfl

instance : LinearOrder IneryCdpCoinPair := LinearOrder.lift' symbols symbols_injective

theorem le_iff (p q : IneryCdpCoinPair) : p ≤ q ↔ p.symbols ≤ q.symbols := Iff.rfl

instance [CompactSize] : Serial IneryCdpCoinPair where
  ser coinPair := ser coinPair.symbols
  unser bytes := (unser (α := TokenSymbol ×ₗ TokenSymbol) bytes).map fun r =>
    (⟨(ofLex r.1).1, (ofLex r.1).2⟩, r.2)

instance [CompactSize] [LawfulCompactSize] : StreamSerial IneryCdpCoinPair where
  unser_append p rest := by
    change (unser (ser p.symbols ++ rest)).map _ = _
    rw [StreamSerial.unser_append]
    rfl

theorem nil_le (p : IneryCdpCoinPair) : ⟨[], []⟩ ≤ p := by
  have hnil : ∀ s : TokenSymbol, [] ≤ s := fun s => not_lt.mp (List.not_lt_nil s)
  exact Prod.Lex.toLex_le_toLex'.mpr ⟨hnil p.assetSymbol, fun _ => hnil p.scoinSymbol⟩

theorem ser_le_of_least [CompactSize] [LawfulCompactSize] {p : IneryCdpCoinPair} (h : ∀ q, p ≤ q)
    (q : IneryCdpCoinPair) : ser p ≤ ser q := by
  obtain rfl : p = ⟨[], []⟩ := le_antisymm (h _) (nil_le p)
  exact ser_toLex_le (ser_nil_le q.assetSymbol) (ser_nil_le q.scoinSymbol)

end IneryCdpCoinPair

/-- A number whose serialization has a fixed length. -/
structure CFixedUInt64 where
  value : UInt64

instance : LinearOrder CFixedUInt64 :=
  LinearOrder.lift' (fun n => n.value.toNat) fun a b h => by
    cases a
    cases b
    exact congrArg _ (UInt64.toNat_inj.mp h)

theorem CFixedUInt64.le_iff (a b : CFixedUInt64) : a ≤ b ↔ a.value ≤ b.value :=
  UInt64.le_iff_toNat_le.symm

abbrev Uint256 := Fin (2 ^ 256)

instance neZero_uint256 : NeZero (2 ^ 256) := ⟨by decide⟩

/-- The height and the index of the transaction that registered an account. -/
abbrev IneryRegID := Fin (2 ^ 32) ×ₗ Fin (2 ^ 16)

instance neZero_height : NeZero (2 ^ 32) := ⟨by decide⟩

instance neZero_index : NeZero (2 ^ 16) := ⟨by decide⟩

/-- An account id as a part of a key. -/
structure IneryRegIDKey where
  regid : IneryRegID

instance : LinearOrder IneryRegIDKey :=
  LinearOrder.lift' IneryRegIDKey.regid fun a b h => by
    cases a
    cases b
    exact congrArg _ h

/-- Coin pair, ratio, height and id: the key of `IneryCdpRatioIndexCache`. -/
abbrev CdpRatioIndexKey := IneryCdpCoinPair ×ₗ CFixedUInt64 ×ₗ CFixedUInt64 ×ₗ Uint256

/-- Coin pair, height and id: the key of `IneryCdpHeightIndexCache`. -/
abbrev CdpHeightIndexKey := IneryCdpCoinPair ×ₗ CFixedUInt64 ×ₗ Uint256

/-- Owner and coin pair: the key of `user_cdp_cache`. -/
abbrev UserCdpKey := IneryRegIDKey ×ₗ IneryCdpCoinPair

/-! ## Serializers -/

namespace BigEndianKeys

/-- A length below 255 is one byte. -/
def readSize : Bytes → Option (ℕ × Bytes)
  | [] => none
  | b :: rest =>
    if b = 255 then (readSize rest).map fun r => (r.1 + 255, r.2) else some (b.val, rest)

scoped instance : CompactSize where
  write n := List.replicate (n / 255) 255 ++ [Fin.ofNat 256 (n % 255)]
  read := readSize

theorem readSize_replicate (k : ℕ) {d : ℕ} (hd : d < 255) (rest : Bytes) :
    readSize (List.replicate k 255 ++ Fin.ofNat 256 d :: rest) = some (k * 255 + d, rest) := by
  have hval : ((Fin.ofNat 256 d : Fin 256) : ℕ) = d := Nat.mod_eq_of_lt (by omega)
  induction k with
  | zero =>
    have hne : (Fin.ofNat 256 d : Fin 256) ≠ 255 := fun h => by
      rw [Fin.ext_iff, hval] at h
      exact absurd h hd.ne
    rw [List.replicate_zero, List.nil_append, readSize, if_neg hne, hval, Nat.zero_mul, Nat.zero_add]
  | succ k ih =>
    rw [List.replicate_succ, List.cons_append, readSize, if_pos rfl, ih]
    simp only [Option.map_some, Option.some.injEq, Prod.mk.injEq, and_true]
    omega

scoped instance : LawfulCompactSize where
  read_write n rest := by
    have h := readSize_replicate (n / 255) (Nat.mod_lt n (by omega)) rest
    rw [Nat.div_add_mod' n 255] at h
    simpa [CompactSize.write, CompactSize.read] using h
  write_zero := rfl

/-- A number of `w` bytes is taken off the front. -/
def readDigits (w : ℕ) (bytes : Bytes) : Option (ℕ × Bytes) :=
  if w ≤ bytes.length then some (ofBigEndian (bytes.take w), bytes.drop w) else none

theorem readDigits_bigEndian {w n : ℕ} (h : n < 256 ^ w) (rest : Bytes) :
    readDigits w (bigEndian w n ++ rest) = some (n, rest) := by
  have hlen := length_bigEndian w n
  rw [readDigits, if_pos (by simp), List.take_left' hlen, List.drop_left' hlen, ofBigEndian_bigEndian h]

scoped instance : Serial CFixedUInt64 where
  ser n := bigEndian 8 n.value.toNat
  unser bytes := (readDigits 8 bytes).map fun r => (⟨UInt64.ofNat r.1⟩, r.2)

theorem toNat_lt (n : CFixedUInt64) : n.value.toNat < 256 ^ 8 := n.value.toNat_lt

scoped instance : StreamSerial CFixedUInt64 where
  unser_append n rest := by
    change (readDigits 8 (bigEndian 8 n.value.toNat ++ rest)).map _ = _
    rw [readDigits_bigEndian (toNat_lt n)]
    simp

theorem sameOrder_fixed : SameOrder CFixedUInt64 := fun a b =>
  (bigEndian_lt_iff (toNat_lt a) (toNat_lt b)).symm

scoped instance : Serial Uint256 where
  ser n := bigEndian 32 n.val
  unser bytes := (readDigits 32 bytes).map fun r => (Fin.ofNat (2 ^ 256) r.1, r.2)

scoped instance : StreamSerial Uint256 where
  unser_append n rest := by
    change (readDigits 32 (bigEndian 32 n.val ++ rest)).map _ = _
    rw [readDigits_bigEndian n.isLt]
    simp

theorem sameOrder_uint256 : SameOrder Uint256 := fun a b => (bigEndian_lt_iff a.isLt b.isLt).symm

scoped instance : Serial IneryRegIDKey where
  ser key := bigEndian 4 (ofLex key.regid).1 ++ bigEndian 2 (ofLex key.regid).2
  unser bytes := (readDigits 4 bytes).bind fun h => (readDigits 2 h.2).map fun i =>
    (⟨toLex (Fin.ofNat _ h.1, Fin.ofNat _ i.1)⟩, i.2)

scoped instance : StreamSerial IneryRegIDKey where
  unser_append key rest := by
    change (readDigits 4 ((bigEndian 4 _ ++ bigEndian 2 _) ++ rest)).bind _ = _
    rw [List.append_assoc, readDigits_bigEndian (ofLex key.regid).1.isLt, Option.bind_some,
      readDigits_bigEndian (ofLex key.regid).2.isLt]
    simp

theorem sameOrder_regid : SameOrder IneryRegIDKey := by
  intro a b
  have hdigits := bigEndian_append_lt_iff (w := 4) (ofLex a.regid).1.isLt (ofLex b.regid).1.isLt
    (bigEndian 2 (ofLex a.regid).2) (bigEndian 2 (ofLex b.regid).2)
  rw [bigEndian_lt_iff (ofLex a.regid).2.isLt (ofLex b.regid).2.isLt, ← Fin.lt_def, ← Fin.lt_def,
    ← Fin.ext_iff] at hdigits
  exact Prod.Lex.lt_iff.trans hdigits.symm

scoped instance : DbUtil CFixedUInt64 := ⟨⟨0⟩, fun n => n.value == 0, fun _ => ⟨0⟩⟩

scoped instance : DbUtil Uint256 := ⟨0, fun n => n == 0, fun _ => 0⟩

scoped instance : DbUtil IneryRegIDKey :=
  ⟨⟨toLex (0, 0)⟩, fun key => (ofLex key.regid).1 == 0 && (ofLex key.regid).2 == 0,
    fun _ => ⟨toLex (0, 0)⟩⟩

scoped instance : DbUtil IneryCdpCoinPair :=
  ⟨⟨[], []⟩, fun p => p.assetSymbol.isEmpty && p.scoinSymbol.isEmpty, fun _ => ⟨[], []⟩⟩

scoped instance : LeastEmpty CFixedUInt64 where
  makeEmptyValue_le n := (CFixedUInt64.le_iff _ n).mpr (UInt64.zero_le)
  le_of_isEmpty e he n := by
    rw [CFixedUInt64.le_iff, eq_of_beq he]
    exact UInt64.zero_le

scoped instance : LeastEmpty Uint256 where
  makeEmptyValue_le n := Fin.zero_le n
  le_of_isEmpty e he n := by
    rw [eq_of_beq he]
    exact Fin.zero_le n

scoped instance : LeastEmpty IneryRegIDKey where
  makeEmptyValue_le key := Prod.Lex.toLex_le_toLex'.mpr ⟨Fin.zero_le _, fun _ => Fin.zero_le _⟩
  le_of_isEmpty e he key := by
    obtain ⟨h, h'⟩ := Bool.and_eq_true_iff.mp he
    exact Prod.Lex.toLex_le_toLex'.mpr
      ⟨(eq_of_beq h).le.trans (Fin.zero_le _), fun _ => (eq_of_beq h').le.trans (Fin.zero_le _)⟩

scoped instance : LeastEmpty IneryCdpCoinPair where
  makeEmptyValue_le p := IneryCdpCoinPair.nil_le p
  le_of_isEmpty e he p := by
    obtain ⟨a, s⟩ := e
    obtain ⟨ha, hs⟩ := Bool.and_eq_true_iff.mp he
    rw [show a = [] from List.isEmpty_iff.mp ha, show s = [] from List.isEmpty_iff.mp hs]
    exact IneryCdpCoinPair.nil_le p

end BigEndianKeys

end Inery
