import IneryPersistence.Cdp.Keys

/-!
# Block headers and block index entries

* `IneryBlockHeader`, `IneryBlock`, `computeSignatureHash`: a header and the hash of eight of its fields;
* `IneryBlockIndex`, `IneryDiskBlockIndex`: an entry of the index, and the record it is stored as;
* `IneryDiskBlockIndex.write`, `IneryDiskBlockIndex.read`: the `SER_DISK` serialization of a record;
* **`IneryDiskBlockIndex.read_write`**: the record that is read back.
-/

namespace Inery

open KV

/-- A block header. -/
structure IneryBlockHeader where
  nVersion : Int32
  prevBlockHash : Uint256
  merkleRootHash : Uint256
  nTime : UInt32
  nNonce : UInt32
  height : UInt32
  nFuelFee : UInt64
  nFuelRate : UInt32
  vSignature : Bytes
deriving DecidableEq

/-- A block over the transactions `Tx`. -/
structure IneryBlock (Tx : Type) extends IneryBlockHeader where
  vptx : List Tx
deriving DecidableEq

/-- `GetFuelFee`, which returns a `uint32_t`. -/
def IneryBlockHeader.getFuelFee (header : IneryBlockHeader) : UInt32 := header.nFuelFee.toUInt32

/-- A position in a block file; the null position is in file `-1`. -/
structure IneryDiskBlockPos where
  nFile : Int32
  nPos : UInt32
deriving DecidableEq

/-- `IneryDiskBlockPos::SetNull`. -/
def IneryDiskBlockPos.null : IneryDiskBlockPos := ⟨-1, 0⟩

def blockHaveData : UInt32 := 8

def blockHaveUndo : UInt32 := 16

theorem and_blockHave_ne_iff {nStatus : UInt32} : nStatus &&& (blockHaveData ||| blockHaveUndo) ≠ 0 ↔
    nStatus &&& blockHaveData ≠ 0 ∨ nStatus &&& blockHaveUndo ≠ 0 := by
  have hor : nStatus &&& (blockHaveData ||| blockHaveUndo) =
      (nStatus &&& blockHaveData) ||| (nStatus &&& blockHaveUndo) :=
    UInt32.toBitVec_inj.mp BitVec.and_or_distrib_left
  rw [hor, ne_eq, UInt32.or_eq_zero_iff, not_and_or]

/-- An entry of the block index; `pprev` is the hash under which `mapBlockIndex` holds the entry that
the pointer goes to. -/
structure IneryBlockIndex where
  pprev : Option Uint256
  height : Int32
  nFile : Int32
  nDataPos : UInt32
  nUndoPos : UInt32
  nStatus : UInt32
  nVersion : Int32
  nTime : UInt32
  nFuelFee : UInt64
  nFuelRate : UInt32
deriving DecidableEq

namespace IneryBlockIndex

/-- The default constructor. -/
def new : IneryBlockIndex := ⟨none, 0, 0, 0, 0, 0, 0, 0, 0, 0⟩

/-- The constructor from a block. -/
def ofBlock {Tx : Type} (block : IneryBlock Tx) : IneryBlockIndex :=
  { new with
    nVersion := block.nVersion
    nTime := block.nTime
    nFuelFee := block.getFuelFee.toUInt64
    nFuelRate := block.nFuelRate }

/-- `GetBlockPos`. -/
def getBlockPos (index : IneryBlockIndex) : IneryDiskBlockPos :=
  if index.nStatus &&& blockHaveData ≠ 0 then ⟨index.nFile, index.nDataPos⟩ else .null

/-- `GetUndoPos`. -/
def getUndoPos (index : IneryBlockIndex) : IneryDiskBlockPos :=
  if index.nStatus &&& blockHaveUndo ≠ 0 then ⟨index.nFile, index.nUndoPos⟩ else .null

end IneryBlockIndex

/-- The record of an entry. -/
structure IneryDiskBlockIndex extends IneryBlockIndex where
  hashPrev : Uint256
  merkleRootHash : Uint256
  nBits : UInt32
  nNonce : UInt32
  bpRegid : IneryRegID
  nTx : UInt32
  vSignature : Bytes

namespace IneryDiskBlockIndex

/-- The constructor from an entry, its block and its producer; the signature is not copied. -/
def ofIndex {Tx : Type} (pIndex : IneryBlockIndex) (block : IneryBlock Tx) (bpRegid : IneryRegID) :
    IneryDiskBlockIndex :=
  { pIndex with
    hashPrev := pIndex.pprev.getD 0
    merkleRootHash := block.merkleRootHash
    nBits := 0
    nNonce := block.nNonce
    bpRegid := bpRegid
    nTx := UInt32.ofNat block.vptx.length
    vSignature := [] }

/-- The header that `GetBlockHash` puts together. -/
def header (index : IneryDiskBlockIndex) : IneryBlockHeader where
  nVersion := index.nVersion
  prevBlockHash := index.hashPrev
  merkleRootHash := index.merkleRootHash
  nTime := index.nTime
  nNonce := index.nNonce
  height := index.height.toUInt32
  nFuelFee := index.nFuelFee
  nFuelRate := index.nFuelRate
  vSignature := index.vSignature

/-- What a record says after it was written and read: only the positions that its status names. -/
def reread (index : IneryDiskBlockIndex) : IneryDiskBlockIndex :=
  { index with
    pprev := none
    nFile := if index.nStatus &&& (blockHaveData ||| blockHaveUndo) ≠ 0 then index.nFile else 0
    nDataPos := if index.nStatus &&& blockHaveData ≠ 0 then index.nDataPos else 0
    nUndoPos := if index.nStatus &&& blockHaveUndo ≠ 0 then index.nUndoPos else 0 }

/-- **A record keeps the positions of its block.** -/
theorem getPos_reread (index : IneryDiskBlockIndex) :
    index.reread.getBlockPos = index.getBlockPos ∧ index.reread.getUndoPos = index.getUndoPos := by
  constructor
  · unfold IneryBlockIndex.getBlockPos
    change (if index.nStatus &&& blockHaveData ≠ 0 then _ else _) = _
    split_ifs with h
    · simp [reread, h, and_blockHave_ne_iff.mpr (.inl h)]
    · rfl
  · unfold IneryBlockIndex.getUndoPos
    change (if index.nStatus &&& blockHaveUndo ≠ 0 then _ else _) = _
    split_ifs with h
    · simp [reread, h, and_blockHave_ne_iff.mpr (.inr h)]
    · rfl

end IneryDiskBlockIndex

/-! ## Hashes -/

section Hash

variable [Serial Int32] [Serial UInt32] [Serial UInt64] [Serial Uint256]

/-- The bytes that `ComputeSignatureHash` hashes. -/
def IneryBlockHeader.hashed (header : IneryBlockHeader) : Bytes :=
  ser header.nVersion ++ (ser header.prevBlockHash ++ (ser header.merkleRootHash ++ (ser header.nTime ++
    (ser header.nNonce ++ (ser header.height ++ (ser header.nFuelFee ++ ser header.nFuelRate))))))

/-- `ComputeSignatureHash`, which is `GetHash`; `hash` is the hash function of `CHashWriter`. -/
def IneryBlockHeader.computeSignatureHash (hash : Bytes → Uint256) (header : IneryBlockHeader) : Uint256 :=
  hash header.hashed

/-- `IneryDiskBlockIndex::GetBlockHash`. -/
def IneryDiskBlockIndex.getBlockHash (hash : Bytes → Uint256) (index : IneryDiskBlockIndex) : Uint256 :=
  index.header.computeSignatureHash hash

/-- Two headers agree in what is hashed. -/
def IneryBlockHeader.SameHashed (header header' : IneryBlockHeader) : Prop :=
  header.nVersion = header'.nVersion ∧ header.prevBlockHash = header'.prevBlockHash ∧
    header.merkleRootHash = header'.merkleRootHash ∧ header.nTime = header'.nTime ∧
      header.nNonce = header'.nNonce ∧ header.height = header'.height ∧
        header.nFuelFee = header'.nFuelFee ∧ header.nFuelRate = header'.nFuelRate

theorem IneryBlockHeader.hashed_eq_iff [StreamSerial Int32] [StreamSerial UInt32] [StreamSerial UInt64]
    [StreamSerial Uint256] {header header' : IneryBlockHeader} :
    header.hashed = header'.hashed ↔ header.SameHashed header' := by
  constructor
  · intro h
    obtain ⟨h₁, h⟩ := ser_append_inj h
    obtain ⟨h₂, h⟩ := ser_append_inj h
    obtain ⟨h₃, h⟩ := ser_append_inj h
    obtain ⟨h₄, h⟩ := ser_append_inj h
    obtain ⟨h₅, h⟩ := ser_append_inj h
    obtain ⟨h₆, h⟩ := ser_append_inj h
    obtain ⟨h₇, h⟩ := ser_append_inj h
    exact ⟨h₁, h₂, h₃, h₄, h₅, h₆, h₇, ser_injective h⟩
  · rintro ⟨h₁, h₂, h₃, h₄, h₅, h₆, h₇, h₈⟩
    rw [IneryBlockHeader.hashed, h₁, h₂, h₃, h₄, h₅, h₆, h₇, h₈]
    rfl

end Hash

/-! ## Records -/

/-- `VARINT`. -/
class VarInt where
  write : ℤ → Bytes
  read : Bytes → Option (ℤ × Bytes)

/-- A number that is not negative is read back. -/
class LawfulVarInt [VarInt] : Prop where
  read_write : ∀ (n : ℤ) (rest : Bytes), 0 ≤ n → VarInt.read (VarInt.write n ++ rest) = some (n, rest)

/-- `CLIENT_VERSION`, the version that the streams of the database have. -/
class ClientVersion where
  clientVersion : ℕ

export ClientVersion (clientVersion)

theorem bind_eq_of_eq_some {A B : Type} {x : Option A} {a : A} {f : A → Option B} {y : Option B}
    (hx : x = some a) (hf : f a = y) : (x >>= f) = y := by
  rw [hx]
  exact hf

section Record

variable [VarInt]

/-- A `VARINT` that is only written under a condition. -/
def writeVarIntIf (c : Bool) (n : ℤ) : Bytes := if c then VarInt.write n else []

/-- Without the condition the number stays `0`. -/
def readVarIntIf (c : Bool) (bytes : Bytes) : Option (ℤ × Bytes) :=
  if c then VarInt.read bytes else some (0, bytes)

theorem readVarIntIf_write [LawfulVarInt] (c : Bool) {n : ℤ} (hn : 0 ≤ n) (rest : Bytes) :
    readVarIntIf c (writeVarIntIf c n ++ rest) = some (if c then n else 0, rest) := by
  cases c with
  | false => rfl
  | true => exact LawfulVarInt.read_write n rest hn

variable [ClientVersion] [CompactSize] [Serial Int32] [Serial UInt32] [Serial UInt64] [Serial Uint256]
  [Serial IneryRegID]

namespace IneryDiskBlockIndex

/-- A record as it is written to the database. The first `nVersion` is the version of the stream, which hides the
member. -/
def write (index : IneryDiskBlockIndex) : Bytes :=
  VarInt.write clientVersion ++ (VarInt.write index.height.toInt ++
    (VarInt.write index.nStatus.toNat ++ (VarInt.write index.nTx.toNat ++
    (writeVarIntIf (index.nStatus &&& (blockHaveData ||| blockHaveUndo) ≠ 0) index.nFile.toInt ++
    (writeVarIntIf (index.nStatus &&& blockHaveData ≠ 0) index.nDataPos.toNat ++
    (writeVarIntIf (index.nStatus &&& blockHaveUndo ≠ 0) index.nUndoPos.toNat ++
    (ser index.nVersion ++ (ser index.hashPrev ++ (ser index.merkleRootHash ++ (ser index.nTime ++
    (ser index.nBits ++ (ser index.nNonce ++ (ser index.nFuelFee ++ (ser index.nFuelRate ++
    (ser index.vSignature ++ ser index.bpRegid)))))))))))))))

/-- A record as it is read from the database; the version of the stream goes into the `nVersion` of the stream. -/
def read (bytes : Bytes) : Option (IneryDiskBlockIndex × Bytes) := do
  let (_, bytes) ← VarInt.read bytes
  let (height, bytes) ← VarInt.read bytes
  let (nStatus, bytes) ← VarInt.read bytes
  let nStatus := UInt32.ofNat nStatus.toNat
  let (nTx, bytes) ← VarInt.read bytes
  let (nFile, bytes) ← readVarIntIf (nStatus &&& (blockHaveData ||| blockHaveUndo) ≠ 0) bytes
  let (nDataPos, bytes) ← readVarIntIf (nStatus &&& blockHaveData ≠ 0) bytes
  let (nUndoPos, bytes) ← readVarIntIf (nStatus &&& blockHaveUndo ≠ 0) bytes
  let (nVersion, bytes) ← unser (α := Int32) bytes
  let (hashPrev, bytes) ← unser (α := Uint256) bytes
  let (merkleRootHash, bytes) ← unser (α := Uint256) bytes
  let (nTime, bytes) ← unser (α := UInt32) bytes
  let (nBits, bytes) ← unser (α := UInt32) bytes
  let (nNonce, bytes) ← unser (α := UInt32) bytes
  let (nFuelFee, bytes) ← unser (α := UInt64) bytes
  let (nFuelRate, bytes) ← unser (α := UInt32) bytes
  let (vSignature, bytes) ← unser (α := Bytes) bytes
  let (bpRegid, bytes) ← unser (α := IneryRegID) bytes
  return ({
    pprev := none
    height := Int32.ofInt height
    nFile := Int32.ofInt nFile
    nDataPos := UInt32.ofNat nDataPos.toNat
    nUndoPos := UInt32.ofNat nUndoPos.toNat
    nStatus := nStatus
    nVersion := nVersion
    nTime := nTime
    nFuelFee := nFuelFee
    nFuelRate := nFuelRate
    hashPrev := hashPrev
    merkleRootHash := merkleRootHash
    nBits := nBits
    nNonce := nNonce
    bpRegid := bpRegid
    nTx := UInt32.ofNat nTx.toNat
    vSignature := vSignature }, bytes)

/-- **The record that is read back.** -/
theorem read_write [LawfulVarInt] [LawfulCompactSize] [StreamSerial Int32] [StreamSerial UInt32]
    [StreamSerial UInt64] [StreamSerial Uint256] [StreamSerial IneryRegID] {index : IneryDiskBlockIndex}
    (hheight : 0 ≤ index.height.toInt) (hfile : 0 ≤ index.nFile.toInt) (rest : Bytes) :
    read (index.write ++ rest) = some (index.reread, rest) := by
  rw [write]
  simp only [List.append_assoc]
  refine bind_eq_of_eq_some (LawfulVarInt.read_write _ _ (Int.natCast_nonneg _)) ?_
  refine bind_eq_of_eq_some (LawfulVarInt.read_write _ _ hheight) ?_
  refine bind_eq_of_eq_some (LawfulVarInt.read_write _ _ (Int.natCast_nonneg _)) ?_
  refine bind_eq_of_eq_some (LawfulVarInt.read_write _ _ (Int.natCast_nonneg _)) ?_
  simp only [Int.toNat_natCast, UInt32.ofNat_toNat]
  refine bind_eq_of_eq_some (readVarIntIf_write _ hfile _) ?_
  refine bind_eq_of_eq_some (readVarIntIf_write _ (Int.natCast_nonneg _) _) ?_
  refine bind_eq_of_eq_some (readVarIntIf_write _ (Int.natCast_nonneg _) _) ?_
  iterate 10 refine bind_eq_of_eq_some (StreamSerial.unser_append _ _) ?_
  simp only [reread, Option.pure_def, decide_eq_true_eq, apply_ite Int32.ofInt, apply_ite Int.toNat,
    apply_ite UInt32.ofNat, Int.toNat_natCast, Int.toNat_zero, Int32.ofInt_toInt, UInt32.ofNat_toNat]
  rfl

end IneryDiskBlockIndex

end Record

end Inery
