import IneryPersistence.Lib.ByteFile
import IneryPersistence.Disk.Stream
import IneryPersistence.Block.Serializers

/-!
# Block files and undo files

A block is stored in a file `blk?????.dat`, and the undo records of a block in a file `rev?????.dat`, each behind the
message start and its own size. A checksum over the hash of the block stands behind the undo records.

* `Disk`, `openDiskFile`: the files, and opening one of them;
* `IneryBlockUndo.writeToDisk`, `IneryBlockUndo.readFromDisk`; `writeBlockToDisk`, `readBlockFromDisk`,
  `readBlockOfIndex`, `readBaseTxFromDisk`;
* `DiskOp`, `Disk.Holds`, **`Disk.Holds.foldl`**: what writes to other places leave;
* **`undo_read_back`**, **`block_read_back`**: what was written is read, however many writes came after it.
-/

namespace Inery

open KV

/-- The two kinds of files under `blocks`. -/
inductive FileKind
  | blk | rev
deriving DecidableEq

/-- The files under `blocks` that there are, by their kind and their number. -/
abbrev Disk := FileKind → Int32 → Option Bytes

/-- `IneryDiskBlockPos::IsNull`. -/
def IneryDiskBlockPos.isNull (pos : IneryDiskBlockPos) : Bool := pos.nFile == -1

/-- The files with one of them changed. -/
def Disk.put (disk : Disk) (kind : FileKind) (nFile : Int32) (file : Bytes) : Disk := fun k n =>
  if k = kind ∧ n = nFile then some file else disk k n

/-- `OpenDiskFile`: the file, which is made if it is not there and may be written. -/
def openDiskFile (disk : Disk) (pos : IneryDiskBlockPos) (kind : FileKind) (fReadOnly : Bool) :
    Option (Bytes × Disk) :=
  if pos.isNull then none
  else match disk kind pos.nFile with
    | some file => some (file, disk)
    | none => if fReadOnly then none else some ([], disk.put kind pos.nFile [])

section Model

variable [CompactSize] [Serial UInt32] [Serial Uint256]

/-- What stands in front of a block or its undo records: the message start and a size. -/
def indexHeader (messageStart : Bytes) (nSize : ℕ) : Bytes := messageStart ++ ser (UInt32.ofNat nSize)

/-- The checksum of the undo records of a block. -/
def IneryBlockUndo.checksum (hash : Bytes → Uint256) (blockUndo : IneryBlockUndo) (blockHash : Uint256) : Uint256 :=
  hash (ser blockHash ++ ser blockUndo)

/-- What `WriteToDisk` writes. -/
def IneryBlockUndo.fileData (messageStart : Bytes) (hash : Bytes → Uint256) (blockUndo : IneryBlockUndo)
    (blockHash : Uint256) : Bytes :=
  indexHeader messageStart (ser blockUndo).length ++ (ser blockUndo ++ ser (blockUndo.checksum hash blockHash))

/-- `IneryBlockUndo::WriteToDisk`: the success, `pos` and the files after it. `ftell` gives a `long`, of which the
position keeps 32 bits. -/
def IneryBlockUndo.writeToDisk (messageStart : Bytes) (hash : Bytes → Uint256) (disk : Disk)
    (blockUndo : IneryBlockUndo) (pos : IneryDiskBlockPos) (blockHash : Uint256) : Bool × IneryDiskBlockPos × Disk :=
  match openDiskFile disk pos .rev false with
  | none => (false, pos, disk)
  | some (fileout, disk) =>
    let fileOutPos := pos.nPos.toNat + (indexHeader messageStart (ser blockUndo).length).length
    (true, { pos with nPos := UInt32.ofNat fileOutPos },
      disk.put .rev pos.nFile (writeAt 0 fileout pos.nPos.toNat (blockUndo.fileData messageStart hash blockHash)))

/-- `IneryBlockUndo::ReadFromDisk`. -/
def IneryBlockUndo.readFromDisk (hash : Bytes → Uint256) (disk : Disk) (pos : IneryDiskBlockPos)
    (blockHash : Uint256) : Option IneryBlockUndo := do
  let (filein, _) ← openDiskFile disk pos .rev true
  let (blockUndo, rest) ← unser (α := IneryBlockUndo) (filein.drop pos.nPos.toNat)
  let (hashChecksum, _) ← unser (α := Uint256) rest
  if hashChecksum = blockUndo.checksum hash blockHash then some blockUndo else none

variable [Serial Int32] [Serial UInt64] {Tx : Type} [Serial Tx]

/-- What `WriteBlockToDisk` writes when `ftell` gives `fileOutPos`: without the block if that is negative. -/
def IneryBlock.fileData (messageStart : Bytes) (block : IneryBlock Tx) (fileOutPos : Int32) : Bytes :=
  indexHeader messageStart (ser block).length ++ (if fileOutPos < 0 then [] else ser block)

/-- `ftell` behind the header of a block, in an `int32_t`. -/
def IneryBlock.fileOutPos (messageStart : Bytes) (block : IneryBlock Tx) (pos : IneryDiskBlockPos) : Int32 :=
  Int32.ofNat (pos.nPos.toNat + (indexHeader messageStart (ser block).length).length)

/-- `WriteBlockToDisk`: the success, `pos` and the files after it. -/
def Disk.writeBlockToDisk (messageStart : Bytes) (disk : Disk) (block : IneryBlock Tx) (pos : IneryDiskBlockPos) :
    Bool × IneryDiskBlockPos × Disk :=
  match openDiskFile disk pos .blk false with
  | none => (false, pos, disk)
  | some (fileout, disk) =>
    let fileOutPos := block.fileOutPos messageStart pos
    let file := writeAt 0 fileout pos.nPos.toNat (block.fileData messageStart fileOutPos)
    if fileOutPos < 0 then (false, pos, disk.put .blk pos.nFile file)
    else (true, { pos with nPos := fileOutPos.toUInt32 }, disk.put .blk pos.nFile file)

/-- `ReadBlockFromDisk` from a position. -/
def Disk.readBlockFromDisk (disk : Disk) (pos : IneryDiskBlockPos) : Option (IneryBlock Tx) := do
  let (filein, _) ← openDiskFile disk pos .blk true
  let (block, _) ← unser (α := IneryBlock Tx) (filein.drop pos.nPos.toNat)
  return block

/-- `ReadBlockFromDisk` for an entry of the index and the hash it is held under. -/
def Disk.readBlockOfIndex (hash : Bytes → Uint256) (disk : Disk) (blockHash : Uint256) (index : IneryBlockIndex) :
    Option (IneryBlock Tx) := do
  let block ← Disk.readBlockFromDisk disk index.getBlockPos
  if block.computeSignatureHash hash = blockHash then some block else none

/-- `IneryTxCord`: the height of a block and the number of a transaction in it. -/
structure IneryTxCord where
  height : UInt32
  index : UInt16

/-- `ReadBaseTxFromDisk`, where `chainActive` has the entries of the chain and the hashes they are held under. -/
def Disk.readBaseTxFromDisk (hash : Bytes → Uint256) (chainActive : UInt32 → Option (Uint256 × IneryBlockIndex))
    (disk : Disk) (txCord : IneryTxCord) : Option Tx := do
  let (blockHash, index) ← chainActive txCord.height
  let block ← Disk.readBlockOfIndex hash disk blockHash index
  block.vptx[txCord.index.toNat]?

/-- Writing a block or its undo records. -/
inductive DiskOp (Tx : Type)
  | writeUndo (blockUndo : IneryBlockUndo) (pos : IneryDiskBlockPos) (blockHash : Uint256)
  | writeBlock (block : IneryBlock Tx) (pos : IneryDiskBlockPos)

namespace DiskOp

def kind : DiskOp Tx → FileKind
  | writeUndo .. => .rev
  | writeBlock .. => .blk

def pos : DiskOp Tx → IneryDiskBlockPos
  | writeUndo _ pos _ | writeBlock _ pos => pos

/-- What is written at the position. -/
def data (messageStart : Bytes) (hash : Bytes → Uint256) : DiskOp Tx → Bytes
  | writeUndo blockUndo _ blockHash => blockUndo.fileData messageStart hash blockHash
  | writeBlock block pos => block.fileData messageStart (block.fileOutPos messageStart pos)

/-- The files after a write. -/
def apply (messageStart : Bytes) (hash : Bytes → Uint256) (disk : Disk) : DiskOp Tx → Disk
  | writeUndo blockUndo pos blockHash => (blockUndo.writeToDisk messageStart hash disk pos blockHash).2.2
  | writeBlock block pos => (Disk.writeBlockToDisk messageStart disk block pos).2.2

/-- A write goes to another file, or to another part of this one. -/
def ApartFrom (messageStart : Bytes) (hash : Bytes → Uint256) (op : DiskOp Tx) (kind : FileKind) (nFile : Int32)
    (pos len : ℕ) : Prop :=
  op.kind = kind → op.pos.nFile = nFile →
    RangesApart pos len op.pos.nPos.toNat (op.data messageStart hash).length

end DiskOp

end Model

/-! ## What the files hold -/

namespace Disk

variable {disk : Disk} {kind : FileKind} {nFile : Int32} {pos : ℕ} {data : Bytes}

/-- A file has the data at the position. -/
def Holds (disk : Disk) (kind : FileKind) (nFile : Int32) (pos : ℕ) (data : Bytes) : Prop :=
  ∃ file, disk kind nFile = some file ∧ HoldsAt file pos data

theorem put_self (disk : Disk) (kind : FileKind) (nFile : Int32) (file : Bytes) :
    disk.put kind nFile file kind nFile = some file := if_pos ⟨rfl, rfl⟩

theorem put_of_ne {kind' : FileKind} {nFile' : Int32} (h : kind = kind' → nFile ≠ nFile') (file : Bytes) :
    disk.put kind' nFile' file kind nFile = disk kind nFile := if_neg fun h' => h h'.1 h'.2

theorem put_put (disk : Disk) (kind : FileKind) (nFile : Int32) (file file' : Bytes) :
    (disk.put kind nFile file).put kind nFile file' = disk.put kind nFile file' := by
  funext k n
  by_cases hkn : k = kind ∧ n = nFile
  · obtain ⟨rfl, rfl⟩ := hkn
    rw [put_self, put_self]
  · rw [put_of_ne fun hk hn => hkn ⟨hk, hn⟩, put_of_ne fun hk hn => hkn ⟨hk, hn⟩,
      put_of_ne fun hk hn => hkn ⟨hk, hn⟩]

theorem openDiskFile_null (disk : Disk) {p : IneryDiskBlockPos} (hp : p.isNull = true) (kind : FileKind)
    (fReadOnly : Bool) : openDiskFile disk p kind fReadOnly = none := by
  rw [openDiskFile, hp]
  rfl

theorem exists_openDiskFile (disk : Disk) {p : IneryDiskBlockPos} (hp : p.isNull = false) (kind : FileKind) :
    ∃ disk', openDiskFile disk p kind false = some ((disk kind p.nFile).getD [], disk') ∧
      ∀ file, disk'.put kind p.nFile file = disk.put kind p.nFile file := by
  rw [openDiskFile, hp]
  cases h : disk kind p.nFile with
  | some file => exact ⟨disk, rfl, fun _ => rfl⟩
  | none => exact ⟨disk.put kind p.nFile [], rfl, put_put disk kind p.nFile []⟩

theorem Holds.behind {data' : Bytes} (h : disk.Holds kind nFile pos (data ++ data')) :
    disk.Holds kind nFile (pos + data.length) data' := by
  obtain ⟨file, hfile, hdata⟩ := h
  exact ⟨file, hfile, (HoldsAt.append_iff.mp hdata).2⟩

theorem Holds.openDiskFile {p : IneryDiskBlockPos} (h : disk.Holds kind p.nFile pos data) (hp : p.isNull = false) :
    ∃ file, openDiskFile disk p kind true = some (file, disk) ∧ HoldsAt file pos data := by
  obtain ⟨file, hfile, hdata⟩ := h
  refine ⟨file, ?_, hdata⟩
  rw [Inery.openDiskFile, hp, hfile]
  rfl

end Disk

section Writes

variable [CompactSize] [Serial UInt32] [Serial Uint256] {messageStart : Bytes} {hash : Bytes → Uint256} {disk : Disk}
  {kind : FileKind} {nFile : Int32} {pos : ℕ} {data : Bytes}

theorem IneryBlockUndo.writeToDisk_null (messageStart : Bytes) (hash : Bytes → Uint256) (disk : Disk)
    (blockUndo : IneryBlockUndo) {p : IneryDiskBlockPos} (hp : p.isNull = true) (blockHash : Uint256) :
    blockUndo.writeToDisk messageStart hash disk p blockHash = (false, p, disk) := by
  rw [writeToDisk, Disk.openDiskFile_null disk hp]

theorem IneryBlockUndo.writeToDisk_eq (messageStart : Bytes) (hash : Bytes → Uint256) (disk : Disk)
    (blockUndo : IneryBlockUndo) {p : IneryDiskBlockPos} (hp : p.isNull = false) (blockHash : Uint256) :
    blockUndo.writeToDisk messageStart hash disk p blockHash =
      (true, ⟨p.nFile, UInt32.ofNat
        (p.nPos.toNat + (indexHeader messageStart (ser blockUndo).length).length)⟩,
        disk.put .rev p.nFile (writeAt 0 ((disk .rev p.nFile).getD []) p.nPos.toNat
          (blockUndo.fileData messageStart hash blockHash))) := by
  obtain ⟨disk', hopen, hput⟩ := Disk.exists_openDiskFile disk hp .rev
  rw [writeToDisk, hopen]
  simp only [hput]

variable [Serial Int32] [Serial UInt64] {Tx : Type} [Serial Tx]

theorem Disk.writeBlockToDisk_null (messageStart : Bytes) (disk : Disk) (block : IneryBlock Tx)
    {p : IneryDiskBlockPos} (hp : p.isNull = true) :
    Disk.writeBlockToDisk messageStart disk block p = (false, p, disk) := by
  rw [Disk.writeBlockToDisk, Disk.openDiskFile_null disk hp]

theorem Disk.writeBlockToDisk_eq (messageStart : Bytes) (disk : Disk) (block : IneryBlock Tx)
    {p : IneryDiskBlockPos} (hp : p.isNull = false) :
    Disk.writeBlockToDisk messageStart disk block p =
      (!decide (block.fileOutPos messageStart p < 0),
        if block.fileOutPos messageStart p < 0 then p else ⟨p.nFile, (block.fileOutPos messageStart p).toUInt32⟩,
        disk.put .blk p.nFile (writeAt 0 ((disk .blk p.nFile).getD []) p.nPos.toNat
          (block.fileData messageStart (block.fileOutPos messageStart p)))) := by
  obtain ⟨disk', hopen, hput⟩ := Disk.exists_openDiskFile disk hp .blk
  rw [Disk.writeBlockToDisk, hopen]
  by_cases hneg : block.fileOutPos messageStart p < 0
  · simp only [hput, hneg, if_true, decide_true, Bool.not_true]
  · simp only [hput, hneg, if_false, decide_false, Bool.not_false]

/-- The position behind the header of a block, when it fits in 32 bits, is negative from `2 ^ 31` on. -/
theorem fileOutPos_neg_iff {block : IneryBlock Tx} {pos : IneryDiskBlockPos}
    (hlen : pos.nPos.toNat + (indexHeader messageStart (ser block).length).length < 2 ^ 32) :
    block.fileOutPos messageStart pos < 0 ↔
      2 ^ 31 ≤ pos.nPos.toNat + (indexHeader messageStart (ser block).length).length := by
  have hsize : Int32.size = 2 ^ 32 := rfl
  rw [IneryBlock.fileOutPos, Int32.lt_iff_toInt_lt, Int32.toInt_ofNat', Int32.toInt_zero, Int.bmod_def, hsize]
  split_ifs <;> omega

/-- **One write**: its data at its position, unless that is the null position. -/
theorem DiskOp.apply_eq (messageStart : Bytes) (hash : Bytes → Uint256) (disk : Disk) (op : DiskOp Tx) :
    op.apply messageStart hash disk = if op.pos.isNull then disk
    else disk.put op.kind op.pos.nFile (writeAt 0 ((disk op.kind op.pos.nFile).getD []) op.pos.nPos.toNat
      (op.data messageStart hash)) := by
  cases op with
  | writeUndo blockUndo p blockHash =>
    cases hnull : p.isNull with
    | true => simp [apply, pos, IneryBlockUndo.writeToDisk_null, hnull]
    | false => simp [apply, pos, kind, data, IneryBlockUndo.writeToDisk_eq, hnull]
  | writeBlock block p =>
    cases hnull : p.isNull with
    | true => simp [apply, pos, Disk.writeBlockToDisk_null, hnull]
    | false => simp [apply, pos, kind, data, Disk.writeBlockToDisk_eq, hnull]

theorem DiskOp.holds_apply (messageStart : Bytes) (hash : Bytes → Uint256) (disk : Disk) {op : DiskOp Tx}
    (hop : op.pos.isNull = false) :
    (op.apply messageStart hash disk).Holds op.kind op.pos.nFile op.pos.nPos.toNat (op.data messageStart hash) := by
  rw [apply_eq, hop]
  exact ⟨_, Disk.put_self .., holdsAt_writeAt_self ..⟩

theorem Disk.Holds.apply (h : disk.Holds kind nFile pos data) {op : DiskOp Tx}
    (hop : op.ApartFrom messageStart hash kind nFile pos data.length) :
    (op.apply messageStart hash disk).Holds kind nFile pos data := by
  rw [DiskOp.apply_eq]
  cases hnull : op.pos.isNull with
  | true => exact h
  | false =>
    obtain ⟨file, hfile, hdata⟩ := h
    rw [if_neg nofun]
    by_cases hsame : kind = op.kind ∧ nFile = op.pos.nFile
    · obtain ⟨rfl, rfl⟩ := hsame
      refine ⟨_, Disk.put_self .., ?_⟩
      rw [hfile]
      exact hdata.writeAt (hop rfl rfl)
    · rw [Holds, Disk.put_of_ne fun hk hn => hsame ⟨hk, hn⟩]
      exact ⟨file, hfile, hdata⟩

/-- **Writes to other places** leave the data. -/
theorem Disk.Holds.foldl (h : disk.Holds kind nFile pos data) {ops : List (DiskOp Tx)}
    (hops : ∀ op ∈ ops, op.ApartFrom messageStart hash kind nFile pos data.length) :
    (ops.foldl (DiskOp.apply messageStart hash) disk).Holds kind nFile pos data := by
  induction ops generalizing disk with
  | nil => exact h
  | cons op ops ih =>
    exact ih (h.apply (hops op List.mem_cons_self)) fun op' hop => hops op' (List.mem_cons_of_mem _ hop)

end Writes

/-! ## Reading back -/

section ReadBack

variable [CompactSize] [LawfulCompactSize] [Serial Uint256] [StreamSerial Uint256] {hash : Bytes → Uint256}

theorem IneryBlockUndo.readFromDisk_of_holds {disk : Disk} {blockUndo : IneryBlockUndo} (hids : blockUndo.TxIds)
    {pos : IneryDiskBlockPos} (hpos : pos.isNull = false) {checksum : Uint256}
    (h : disk.Holds .rev pos.nFile pos.nPos.toNat (ser blockUndo ++ ser checksum)) (blockHash : Uint256) :
    IneryBlockUndo.readFromDisk hash disk pos blockHash =
      if checksum = blockUndo.checksum hash blockHash then some blockUndo else none := by
  obtain ⟨file, hopen, rest, hrest⟩ := h.openDiskFile hpos
  rw [List.append_assoc] at hrest
  refine bind_eq_of_eq_some hopen ?_
  refine bind_eq_of_eq_some ((congrArg unser hrest.symm).trans (IneryBlockUndo.readsBack hids _)) ?_
  exact bind_eq_of_eq_some (StreamSerial.unser_append _ _) rfl

variable [Serial UInt32] [Serial Int32] [Serial UInt64] {Tx : Type} [Serial Tx] {messageStart : Bytes}

/-- **Undo records are read back** from the position that `WriteToDisk` leaves, whatever was in the files and
whatever is written after them to other places: for the hash of their block, and for another hash only if that
gives the same checksum. -/
theorem undo_read_back (disk : Disk) {blockUndo : IneryBlockUndo} (hids : blockUndo.TxIds) {pos : IneryDiskBlockPos}
    (hpos : pos.isNull = false) (blockHash : Uint256)
    (hlen : pos.nPos.toNat + (indexHeader messageStart (ser blockUndo).length).length < 2 ^ 32)
    {ops : List (DiskOp Tx)} (hops : ∀ op ∈ ops, op.ApartFrom messageStart hash .rev pos.nFile pos.nPos.toNat
      (blockUndo.fileData messageStart hash blockHash).length) :
    let r := blockUndo.writeToDisk messageStart hash disk pos blockHash
    r.1 = true ∧ ∀ blockHash',
      IneryBlockUndo.readFromDisk hash (ops.foldl (DiskOp.apply messageStart hash) r.2.2) r.2.1 blockHash' =
        if blockUndo.checksum hash blockHash = blockUndo.checksum hash blockHash' then some blockUndo else none := by
  intro r
  have hr : r = _ := IneryBlockUndo.writeToDisk_eq messageStart hash disk blockUndo hpos blockHash
  have hput : r.2.2.Holds .rev pos.nFile pos.nPos.toNat (blockUndo.fileData messageStart hash blockHash) :=
    @DiskOp.holds_apply _ _ _ _ _ Tx _ messageStart hash disk (.writeUndo blockUndo pos blockHash) hpos
  have hdata := (hput.foldl hops).behind
  have hnPos : r.2.1.nPos.toNat = pos.nPos.toNat + (indexHeader messageStart (ser blockUndo).length).length := by
    rw [hr, UInt32.toNat_ofNat', Nat.mod_eq_of_lt hlen]
  rw [← hnPos] at hdata
  refine ⟨by rw [hr], fun blockHash' => ?_⟩
  have hnFile : r.2.1.nFile = pos.nFile := by rw [hr]
  rw [← hnFile] at hdata
  have hnull : r.2.1.isNull = false := by
    rw [IneryDiskBlockPos.isNull, hnFile]
    exact hpos
  exact IneryBlockUndo.readFromDisk_of_holds hids hnull hdata blockHash'

/-- **A block is read back** from the position that `WriteBlockToDisk` leaves when it succeeds, which is when the
block begins below `2 ^ 31`; the entry of the index that names this position must have the hash of the block. -/
theorem block_read_back [StreamSerial Int32] [StreamSerial UInt32] [StreamSerial UInt64] (disk : Disk)
    {block : IneryBlock Tx} (hblock : ∀ tx ∈ block.vptx, ReadsBack tx) {pos : IneryDiskBlockPos}
    (hpos : pos.isNull = false)
    (hlen : pos.nPos.toNat + (indexHeader messageStart (ser block).length).length < 2 ^ 32)
    {ops : List (DiskOp Tx)} (hops : ∀ op ∈ ops, op.ApartFrom messageStart hash .blk pos.nFile pos.nPos.toNat
      (block.fileData messageStart (block.fileOutPos messageStart pos)).length) :
    let r := Disk.writeBlockToDisk messageStart disk block pos
    let disk' := ops.foldl (DiskOp.apply messageStart hash) r.2.2
    (r.1 = true ↔ pos.nPos.toNat + (indexHeader messageStart (ser block).length).length < 2 ^ 31) ∧
      (r.1 = true → Disk.readBlockFromDisk disk' r.2.1 = some block ∧
        ∀ blockHash index, index.getBlockPos = r.2.1 →
          Disk.readBlockOfIndex hash disk' blockHash index =
              (if block.computeSignatureHash hash = blockHash then some block else none) ∧
            ∀ chainActive txCord, chainActive txCord.height = some (blockHash, index) →
              Disk.readBaseTxFromDisk hash chainActive disk' txCord =
                if block.computeSignatureHash hash = blockHash then block.vptx[txCord.index.toNat]? else none) := by
  intro r disk'
  have hr : r = _ := Disk.writeBlockToDisk_eq messageStart disk block hpos
  have hsuccess : r.1 = true ↔ ¬block.fileOutPos messageStart pos < 0 := by
    rw [hr, Bool.not_eq_true', decide_eq_false_iff_not]
  rw [hsuccess, fileOutPos_neg_iff hlen, not_le]
  refine ⟨Iff.rfl, fun hfits => ?_⟩
  have hneg : ¬block.fileOutPos messageStart pos < 0 := mt (fileOutPos_neg_iff hlen).mp (by omega)
  have hput : r.2.2.Holds .blk pos.nFile pos.nPos.toNat
      (block.fileData messageStart (block.fileOutPos messageStart pos)) :=
    @DiskOp.holds_apply _ _ _ _ _ Tx _ messageStart hash disk (.writeBlock block pos) hpos
  have hdata := hput.foldl hops
  have hr₂ : r.2.1 = ⟨pos.nFile, (block.fileOutPos messageStart pos).toUInt32⟩ := by
    rw [hr]
    exact if_neg hneg
  have hnPos : r.2.1.nPos.toNat = pos.nPos.toNat + (indexHeader messageStart (ser block).length).length := by
    rw [hr₂]
    exact UInt32.toNat_ofNat'.trans (Nat.mod_eq_of_lt hlen)
  rw [IneryBlock.fileData, if_neg hneg] at hdata
  replace hdata := hdata.behind
  have hnFile : r.2.1.nFile = pos.nFile := by rw [hr₂]
  rw [← hnPos, ← hnFile] at hdata
  have hnull : r.2.1.isNull = false := by
    rw [IneryDiskBlockPos.isNull, hnFile]
    exact hpos
  obtain ⟨file, hopen, rest, hrest⟩ := hdata.openDiskFile hnull
  have hread : Disk.readBlockFromDisk disk' r.2.1 = some block :=
    bind_eq_of_eq_some hopen (bind_eq_of_eq_some
      ((congrArg unser hrest.symm).trans (IneryBlock.readsBack hblock _)) rfl)
  refine ⟨hread, fun blockHash index hindex => ?_⟩
  rw [← hindex] at hread
  have hindexed : Disk.readBlockOfIndex hash disk' blockHash index =
      if block.computeSignatureHash hash = blockHash then some block else none := bind_eq_of_eq_some hread rfl
  refine ⟨hindexed, fun chainActive txCord hchain => ?_⟩
  refine bind_eq_of_eq_some hchain ?_
  by_cases hhash : block.computeSignatureHash hash = blockHash
  · rw [if_pos hhash] at hindexed ⊢
    exact bind_eq_of_eq_some hindexed rfl
  · rw [if_neg hhash] at hindexed ⊢
    show Option.bind (Disk.readBlockOfIndex hash disk' blockHash index) _ = none
    rw [hindexed]
    rfl

end ReadBack


/-! ## Files of two writes -/

section Example

open BigEndianKeys LittleEndian

/-- The undo records of a block with one transaction, which set the record under `1` back to `2`. -/
def oneTxUndo : IneryBlockUndo :=
  [⟨List.replicate 32 7, (∅ : SortedMap _ _).insert [3] [⟨[1], [2]⟩]⟩]

/-- They are read back when a block has been written to another file, and other undo records behind them. -/
theorem undo_read_back_two :
    let ops : List (DiskOp Byte) :=
      [.writeBlock ⟨⟨1, 0, 0, 0, 0, 1, 0, 100, []⟩, [9]⟩ ⟨0, 0⟩, .writeUndo [] ⟨0, 200⟩ 6]
    let r := oneTxUndo.writeToDisk [1, 2, 3, 4] (fun _ => 11) (fun _ _ => none) ⟨0, 0⟩ 5
    r.1 = true ∧ IneryBlockUndo.readFromDisk (fun _ => 11)
      (ops.foldl (DiskOp.apply [1, 2, 3, 4] fun _ => 11) r.2.2) r.2.1 5 = some oneTxUndo := by
  intro ops r
  have hids : oneTxUndo.TxIds := by
    intro u hu
    rw [List.mem_singleton.mp hu]
    rfl
  have hops : ∀ op ∈ ops, op.ApartFrom [1, 2, 3, 4] (fun _ => 11) .rev 0 0
      (oneTxUndo.fileData [1, 2, 3, 4] (fun _ => 11) 5).length :=
    List.forall_mem_cons.mpr ⟨nofun, List.forall_mem_singleton.mpr fun _ _ => .inl (by decide +kernel)⟩
  have hpos : IneryDiskBlockPos.isNull ⟨0, 0⟩ = false := rfl
  obtain ⟨h, hread⟩ := undo_read_back (fun _ _ => none) hids hpos 5 (by decide +kernel) hops
  exact ⟨h, (hread 5).trans (if_pos rfl)⟩

/-- A block is read back by the entry of its index when its undo records have been written. -/
theorem block_read_back_two :
    let block : IneryBlock Byte := ⟨⟨1, 0, 0, 0, 0, 1, 0, 100, []⟩, [9]⟩
    let index : IneryBlockIndex := { IneryBlockIndex.new with nDataPos := 8, nStatus := 8 }
    let r := Disk.writeBlockToDisk [1, 2, 3, 4] (fun _ _ => none) block ⟨0, 0⟩
    let disk := ([.writeUndo oneTxUndo ⟨0, 0⟩ 11] : List (DiskOp Byte)).foldl
      (DiskOp.apply [1, 2, 3, 4] fun _ => 11) r.2.2
    r.1 = true ∧ Disk.readBlockOfIndex (fun _ => 11) disk 11 index = some block ∧
      Disk.readBaseTxFromDisk (fun _ => 11) (fun _ => some (11, index)) disk ⟨1, 0⟩ = some (9 : Byte) := by
  intro block index r disk
  have hops : ∀ op ∈ ([.writeUndo oneTxUndo ⟨0, 0⟩ 11] : List (DiskOp Byte)), op.ApartFrom [1, 2, 3, 4] (fun _ => 11)
      .blk 0 0 (block.fileData [1, 2, 3, 4] (block.fileOutPos [1, 2, 3, 4] ⟨0, 0⟩)).length :=
    List.forall_mem_singleton.mpr nofun
  have hpos : IneryDiskBlockPos.isNull ⟨0, 0⟩ = false := rfl
  obtain ⟨hsuccess, hread⟩ := block_read_back (fun _ _ => none) (fun tx _ => readsBack tx) hpos
    (by decide +kernel) hops
  have h : r.1 = true := hsuccess.mpr (by decide +kernel)
  obtain ⟨-, hindex⟩ := hread h
  obtain ⟨hblock, htx⟩ := hindex 11 index (by decide +kernel)
  exact ⟨h, hblock.trans (if_pos rfl), (htx (fun _ => some (11, index)) ⟨1, 0⟩ rfl).trans (if_pos rfl)⟩

end Example

end Inery
