import IneryPersistence.Block.IndexDb

/-!
# Reading a header back

* `IneryBlock.getBlockHeader`, `IneryDiskBlockIndex.getBlockHeader`: two copies of a header into one
  that the caller has;
* **`IneryDiskBlockIndex.round_trip`**: a record is read back as it was written;
* `getBlockIndex`, `getBlockHeader`: the header of an entry, by way of its record;
* **`getBlockHeader_iff`**: what is read is the header of the block exactly if the fuel fee and the fuel
  rate were there before.
-/

namespace Inery

open KV

/-- `IneryBlock::GetBlockHeader`, into `header`. -/
def IneryBlock.getBlockHeader {Tx : Type} (block : IneryBlock Tx) (header : IneryBlockHeader) :
    IneryBlockHeader :=
  { header with
    nVersion := block.nVersion
    prevBlockHash := block.prevBlockHash
    merkleRootHash := block.merkleRootHash
    nTime := block.nTime
    nNonce := block.nNonce
    height := block.height
    nFuelFee := block.nFuelFee
    nFuelRate := block.nFuelRate
    vSignature := block.vSignature }

/-- `IneryDiskBlockIndex::GetBlockHeader`, into `header`; its fuel fee and fuel rate stay. -/
def IneryDiskBlockIndex.getBlockHeader (index : IneryDiskBlockIndex) (header : IneryBlockHeader) :
    IneryBlockHeader :=
  { header with
    nVersion := index.nVersion
    prevBlockHash := index.hashPrev
    merkleRootHash := index.merkleRootHash
    nTime := index.nTime
    nNonce := index.nNonce
    height := index.height.toUInt32
    vSignature := index.vSignature }

/-- Two headers agree in all that is hashed but the fuel fee and the fuel rate. -/
theorem IneryBlockHeader.sameHashed_getBlockHeader_iff (index : IneryDiskBlockIndex)
    (header header' : IneryBlockHeader) (h : index.header.SameHashed header') :
    (index.getBlockHeader header).SameHashed header' ↔
      header.nFuelFee = header'.nFuelFee ∧ header.nFuelRate = header'.nFuelRate := by
  obtain ⟨hversion, hprev, hmerkle, htime, hnonce, hheight, -, -⟩ := h
  constructor
  · rintro ⟨-, -, -, -, -, -, hfee, hrate⟩
    exact ⟨hfee, hrate⟩
  · rintro ⟨hfee, hrate⟩
    exact ⟨hversion, hprev, hmerkle, htime, hnonce, hheight, hfee, hrate⟩

section Read

variable [VarInt] [ClientVersion] [CompactSize] [Serial Int32] [Serial UInt32] [Serial UInt64] [Serial Uint256]
  [Serial IneryRegID] (hash : Bytes → Uint256)

/-- A record as a value of the database. -/
instance : Serial IneryDiskBlockIndex where
  ser := IneryDiskBlockIndex.write
  unser := IneryDiskBlockIndex.read

/-- `IneryBlockIndexDB::GetBlockIndex`. -/
def getBlockIndex (db : LevelDb) (blockHash : Uint256) : Option IneryDiskBlockIndex :=
  readDb db (genDbKey .blockIndex blockHash)

/-- `GetBlockHeader` for the entry that `mapBlockIndex` holds under `blockHash`, into `header`. -/
def getBlockHeader (db : LevelDb) (blockHash : Uint256) (header : IneryBlockHeader) :
    Option IneryBlockHeader :=
  (getBlockIndex db blockHash).map fun diskBlockIndex => diskBlockIndex.getBlockHeader header

/-- The record of a block is in the database. -/
def Node.Recorded {Tx : Type} (node : Node Tx) (db : LevelDb) : Prop :=
  db.find? (diskRecord hash node.diskIndex).1 = some (diskRecord hash node.diskIndex).2

variable {hash} {Tx : Type}

theorem Node.recorded_writeBlockIndex (node : Node Tx) (db : LevelDb) :
    node.Recorded hash (writeBlockIndex hash db node.diskIndex) :=
  SortedMap.find?_insert_self _ _ _

theorem Node.Recorded.writeBlockIndex [LawfulSerial Uint256] {node : Node Tx} {db : LevelDb}
    (h : node.Recorded hash db) {d : IneryDiskBlockIndex}
    (hne : d.getBlockHash hash ≠ node.diskIndex.getBlockHash hash) :
    node.Recorded hash (writeBlockIndex hash db d) :=
  (SortedMap.find?_insert_of_ne _ (fun he => hne (genDbKey_injective .blockIndex he).symm) _).trans h

variable [LawfulVarInt] [LawfulCompactSize] [StreamSerial Int32] [StreamSerial UInt32]
  [StreamSerial UInt64] [StreamSerial Uint256] [StreamSerial IneryRegID]

/-- What reading and writing a record keep. -/
structure IneryDiskBlockIndex.SameSerialized (index index' : IneryDiskBlockIndex) : Prop where
  fields : index' =
    { index with pprev := none, nFile := index'.nFile, nDataPos := index'.nDataPos, nUndoPos := index'.nUndoPos }
  nFile : index'.nFile =
    if index.nStatus &&& blockHaveData ≠ 0 ∨ index.nStatus &&& blockHaveUndo ≠ 0 then index.nFile else 0
  nDataPos : index'.nDataPos = if index.nStatus &&& blockHaveData ≠ 0 then index.nDataPos else 0
  nUndoPos : index'.nUndoPos = if index.nStatus &&& blockHaveUndo ≠ 0 then index.nUndoPos else 0

omit [VarInt] [ClientVersion] [CompactSize] [Serial Int32] [Serial UInt32] [Serial UInt64] [Serial Uint256]
  [Serial IneryRegID] [LawfulVarInt] [LawfulCompactSize] [StreamSerial Int32] [StreamSerial UInt32]
  [StreamSerial UInt64] [StreamSerial Uint256] [StreamSerial IneryRegID] in
theorem IneryDiskBlockIndex.sameSerialized_reread (index : IneryDiskBlockIndex) :
    index.SameSerialized index.reread where
  fields := rfl
  nFile := if_congr and_blockHave_ne_iff rfl rfl
  nDataPos := rfl
  nUndoPos := rfl

/-- **The round trip of a record.** All bytes are read, every field that is written comes back, and with them the
positions and the hash of the block. -/
theorem IneryDiskBlockIndex.round_trip (hash : Bytes → Uint256) (index : IneryDiskBlockIndex)
    (hheight : 0 ≤ index.height.toInt) (hfile : 0 ≤ index.nFile.toInt) :
    ∃ index', IneryDiskBlockIndex.read index.write = some (index', []) ∧ index.SameSerialized index' ∧
      index'.getBlockPos = index.getBlockPos ∧ index'.getUndoPos = index.getUndoPos ∧
        index'.getBlockHash hash = index.getBlockHash hash := by
  have hread := read_write hheight hfile []
  rw [List.append_nil] at hread
  exact ⟨_, hread, index.sameSerialized_reread, (getPos_reread index).1, (getPos_reread index).2, rfl⟩

theorem Node.Recorded.getBlockIndex {node : Node Tx} {db : LevelDb} (h : node.Recorded hash db)
    (hm : node.Matches) (hheight : 0 ≤ node.height.toInt) (hfile : 0 ≤ node.nFile.toInt) :
    getBlockIndex db (node.block.computeSignatureHash hash) = some node.diskIndex.reread := by
  have hfind : db.find? (genDbKey .blockIndex (node.block.computeSignatureHash hash)) =
      some node.diskIndex.write := by
    rw [← hm.getBlockHash_eq]
    exact h
  have hread : IneryDiskBlockIndex.read node.diskIndex.write = some (node.diskIndex.reread, []) := by
    rw [← List.append_nil node.diskIndex.write]
    exact IneryDiskBlockIndex.read_write hheight hfile []
  rw [Inery.getBlockIndex, readDb, hfind, Option.bind_some]
  exact congrArg (Option.map Prod.fst) hread

/-- **Reading a header back.** The header of a recorded block is found, and it is the one that the
block gives exactly if the fuel fee and the fuel rate of the block were in `header` before. -/
theorem getBlockHeader_iff {node : Node Tx} {db : LevelDb} (h : node.Recorded hash db)
    (hm : node.Matches) (hheight : 0 ≤ node.height.toInt) (hfile : 0 ≤ node.nFile.toInt)
    (header header₀ : IneryBlockHeader) :
    ∃ header', getBlockHeader db (node.block.computeSignatureHash hash) header = some header' ∧
      (header'.SameHashed (node.block.getBlockHeader header₀) ∧
          header'.computeSignatureHash hash = node.block.computeSignatureHash hash ↔
        header.nFuelFee = node.block.nFuelFee ∧ header.nFuelRate = node.block.nFuelRate) := by
  refine ⟨node.diskIndex.reread.getBlockHeader header, ?_, ?_⟩
  · rw [getBlockHeader, h.getBlockIndex hm hheight hfile]
    rfl
  · rw [← IneryBlockHeader.sameHashed_getBlockHeader_iff node.diskIndex.reread header _
      (node.sameHashed_iff.mpr hm)]
    constructor
    · exact fun hsame => hsame.1
    · exact fun hsame => ⟨hsame, congrArg hash (IneryBlockHeader.hashed_eq_iff.mpr hsame)⟩

end Read

/-! ## A block that burns fuel -/

namespace LittleEndian

open scoped BigEndianKeys

theorem round_trip_second : ∃ index', IneryDiskBlockIndex.read second.diskIndex.write = some (index', []) ∧
    index'.getBlockPos = ⟨1, 900⟩ ∧ index'.getUndoPos = .null ∧ index'.nUndoPos = 0 ∧ index'.nTx = 2 := by
  obtain ⟨index', hread, hsame, hpos, hundo, -⟩ :=
    IneryDiskBlockIndex.round_trip sumHash second.diskIndex (by decide +kernel) (by decide +kernel)
  refine ⟨index', hread, hpos, hundo, hsame.nUndoPos, ?_⟩
  rw [hsame.fields]
  rfl

/-- A header that was not filled yet. -/
def newHeader : IneryBlockHeader := ⟨1, 0, 0, 0, 0, 0, 0, 100, []⟩

/-- The database with the record of `second`. -/
def secondDb : LevelDb := writeBlockIndex sumHash ∅ second.diskIndex

theorem getBlockHeader_iff_second :
    ∃ header' ∈ getBlockHeader secondDb (second.block.computeSignatureHash sumHash)
        { newHeader with nFuelFee := 11 },
      header'.computeSignatureHash sumHash = second.block.computeSignatureHash sumHash := by
  obtain ⟨header', hheader', hiff⟩ := getBlockHeader_iff (second.recorded_writeBlockIndex ∅)
    ⟨by decide +kernel, by decide +kernel⟩ (by decide +kernel) (by decide +kernel)
    { newHeader with nFuelFee := 11 } newHeader
  exact ⟨header', hheader', (hiff.mpr ⟨rfl, rfl⟩).2⟩

/-- **The fuel fee is not read back.** Read into a new header, the header of `second` burns nothing and
has another hash than the block. -/
theorem second_fuelFee_lost :
    second.Matches ∧ second.Recorded sumHash secondDb ∧
      ∃ header' ∈ getBlockHeader secondDb (second.block.computeSignatureHash sumHash) newHeader,
        header'.nFuelFee = 0 ∧ (second.block.getBlockHeader newHeader).nFuelFee = 11 ∧
          header'.computeSignatureHash sumHash ≠ second.block.computeSignatureHash sumHash :=
  ⟨⟨by decide +kernel, by decide +kernel⟩, second.recorded_writeBlockIndex ∅, by decide +kernel⟩

end LittleEndian

end Inery
