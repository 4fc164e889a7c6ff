import IneryPersistence.Block.Serializers
import IneryPersistence.Db.Access
import Mathlib.Data.Set.List

/-!
# Reloading the block index

* `writeBlockIndex`, `insertBlockIndex`, `loadBlockIndexes`: the functions of `IneryBlockIndexDB`;
* `Cursor`: the records of a database in some order, as a cursor passes over them;
* `loadRecords_record`: what a run over written records leaves in `mapBlockIndex`;
* `Node`, `BlockTree`, `Restored`: blocks with their index entries, and entries that came back;
* **`loadBlockIndexes_restored_iff`**: the entries of a tree come back exactly if every block is found
  under its hash.
-/

namespace Inery

open KV

/-- `mapBlockIndex`; a pointer to an entry is the hash it is held under. -/
abbrev BlockMap := SortedMap Uint256 IneryBlockIndex

/-- `InsertBlockIndex`: the null hash has no entry, and a new entry is made for an unknown hash. -/
def insertBlockIndex (hash : Uint256) (mapBlockIndex : BlockMap) : Option Uint256 × BlockMap :=
  if hash = 0 then (none, mapBlockIndex)
  else match mapBlockIndex.find? hash with
    | some _ => (some hash, mapBlockIndex)
    | none => (some hash, mapBlockIndex.insert hash .new)

theorem insertBlockIndex_fst (hash : Uint256) (m : BlockMap) :
    (insertBlockIndex hash m).1 = if hash = 0 then none else some hash := by
  rw [insertBlockIndex]
  split_ifs with h
  · rfl
  · cases m.find? hash <;> rfl

theorem find?_insertBlockIndex (hash : Uint256) (m : BlockMap) (h : Uint256) :
    (insertBlockIndex hash m).2.find? h =
      (m.find? h).or (if h ≠ 0 ∧ h = hash then some .new else none) := by
  rw [insertBlockIndex]
  by_cases h0 : hash = 0
  · simp [h0]
  rw [if_neg h0]
  by_cases hh : h = hash
  · subst hh
    cases hf : m.find? h with
    | none => simp [h0]
    | some e => simp [hf]
  · cases hf : m.find? hash with
    | none => simp [SortedMap.find?_insert_of_ne _ hh, hh]
    | some e => simp [hh]

/-- A cursor passes over the records of the block index in any order, and then over anything else. -/
def Cursor (db : LevelDb) (pCursor : List (Bytes × Bytes)) : Prop :=
  ∃ records rest, pCursor = records ++ rest ∧
    records.Perm (db.entries.filter fun r => (getKeyPrefix .blockIndex).isPrefixOf r.1) ∧
      ∀ r ∈ rest.head?, (getKeyPrefix .blockIndex).isPrefixOf r.1 = false

theorem cursor_lowerBound (db : LevelDb) : Cursor db (db.lowerBound (getKeyPrefix .blockIndex)) := by
  have hle : ∀ r ∈ db.lowerBound (getKeyPrefix .blockIndex), getKeyPrefix .blockIndex ≤ r.1 :=
    fun r hr => (SortedMap.mem_lowerBound.mp hr).2
  refine ⟨_, _, (List.takeWhile_append_dropWhile
    (p := fun r => (getKeyPrefix .blockIndex).isPrefixOf r.1)).symm, ?_, fun r hr => ?_⟩
  · rw [ takeWhile_prefix (db.ascending_lowerBound _) hle]
    have hperm : (db.lowerBound (getKeyPrefix .blockIndex)).filter (fun r =>
        (getKeyPrefix .blockIndex).isPrefixOf r.1) = db.entries.filter fun r =>
          (getKeyPrefix .blockIndex).isPrefixOf r.1 := by
      refine ((db.ascending_lowerBound _).filter _).ext (db.ascending.filter _) fun r => ?_
      rw [List.mem_filter, List.mem_filter, SortedMap.mem_lowerBound]
      constructor
      · exact fun ⟨⟨hr, _⟩, hp⟩ => ⟨hr, hp⟩
      · rintro ⟨hr, hp⟩
        obtain ⟨t, ht⟩ := List.isPrefixOf_iff_prefix.mp hp
        exact ⟨⟨hr, ht ▸ le_append _ t⟩, hp⟩
    rw [hperm]
  · have hnot := List.head?_dropWhile_not (fun r : Bytes × Bytes =>
      (getKeyPrefix .blockIndex).isPrefixOf r.1) (db.lowerBound (getKeyPrefix .blockIndex))
    rw [Option.mem_def.mp hr] at hnot
    exact hnot

section Load

variable [VarInt] [ClientVersion] [CompactSize] [Serial Int32] [Serial UInt32] [Serial UInt64] [Serial Uint256]
  [Serial IneryRegID] (hash : Bytes → Uint256)

/-- The record of an entry in the database. -/
def diskRecord (blockIndex : IneryDiskBlockIndex) : Bytes × Bytes :=
  (genDbKey .blockIndex (blockIndex.getBlockHash hash), blockIndex.write)

/-- `IneryBlockIndexDB::WriteBlockIndex`. -/
def writeBlockIndex (db : LevelDb) (blockIndex : IneryDiskBlockIndex) : LevelDb :=
  db.insert (diskRecord hash blockIndex).1 (diskRecord hash blockIndex).2

/-- The body of the loop of `LoadBlockIndexes`; `none` if the record cannot be read, or if its hash is
null, when the entry is written through a null pointer. -/
def loadRecord (value : Bytes) (mapBlockIndex : BlockMap) : Option BlockMap := do
  let (diskIndex, _) ← IneryDiskBlockIndex.read value
  let (pIndexNew, mapBlockIndex) := insertBlockIndex (diskIndex.getBlockHash hash) mapBlockIndex
  let (pprev, mapBlockIndex) := insertBlockIndex diskIndex.hashPrev mapBlockIndex
  let pIndexNew ← pIndexNew
  return mapBlockIndex.insert pIndexNew
    { pprev := pprev
      height := diskIndex.height
      nFile := diskIndex.nFile
      nDataPos := diskIndex.nDataPos
      nUndoPos := diskIndex.nUndoPos
      nVersion := diskIndex.nVersion
      nTime := diskIndex.nTime
      nStatus := diskIndex.nStatus
      nFuelFee := diskIndex.nFuelFee
      nFuelRate := diskIndex.nFuelRate }

/-- The loop of `LoadBlockIndexes`, over the records from the position of the cursor on. -/
def loadRecords : List (Bytes × Bytes) → BlockMap → Option BlockMap
  | [], mapBlockIndex => some mapBlockIndex
  | (slKey, slValue) :: pCursor, mapBlockIndex =>
    if (getKeyPrefix .blockIndex).isPrefixOf slKey then
      (loadRecord hash slValue mapBlockIndex).bind (loadRecords pCursor)
    else some mapBlockIndex

/-- `IneryBlockIndexDB::LoadBlockIndexes`. -/
def loadBlockIndexes (db : LevelDb) (mapBlockIndex : BlockMap) : Option BlockMap :=
  loadRecords hash (db.lowerBound (getKeyPrefix .blockIndex)) mapBlockIndex


theorem isPrefixOf_diskRecord (d : IneryDiskBlockIndex) :
    (getKeyPrefix .blockIndex).isPrefixOf (diskRecord hash d).1 = true :=
  List.isPrefixOf_iff_prefix.mpr (List.prefix_append _ _)

/-! ## Writing -/

variable {hash}

theorem mem_foldl_writeBlockIndex {db : LevelDb} {ds : List IneryDiskBlockIndex} {r : Bytes × Bytes}
    (hr : r ∈ (ds.foldl (writeBlockIndex hash) db).entries) :
    r ∈ db.entries ∨ ∃ d ∈ ds, r = diskRecord hash d := by
  induction ds generalizing db with
  | nil => exact .inl hr
  | cons d ds ih =>
    rcases ih hr with h | ⟨d', hd', rfl⟩
    · rcases SortedMap.mem_insertEntry h with rfl | h
      · exact .inr ⟨d, List.mem_cons_self, rfl⟩
      · exact .inl h
    · exact .inr ⟨d', List.mem_cons_of_mem _ hd', rfl⟩

theorem isSome_foldl_writeBlockIndex {db : LevelDb} {ds : List IneryDiskBlockIndex} {key : Bytes}
    (h : (db.find? key).isSome ∨ key ∈ ds.map fun d => (diskRecord hash d).1) :
    ((ds.foldl (writeBlockIndex hash) db).find? key).isSome := by
  induction ds generalizing db with
  | nil => simpa using h
  | cons d ds ih =>
    refine ih ?_
    rw [writeBlockIndex, SortedMap.find?_insert]
    rw [List.map_cons, List.mem_cons] at h
    split_ifs with hk
    · exact .inl rfl
    · rcases h with h | h | h
      · exact .inl h
      · exact absurd h hk
      · exact .inr h

/-! ## Loading -/

variable (hash) in
/-- A record that can be read back under a hash that is not null. -/
structure Loadable (d : IneryDiskBlockIndex) : Prop where
  height_nonneg : 0 ≤ d.height.toInt
  nFile_nonneg : 0 ≤ d.nFile.toInt
  hash_ne : d.getBlockHash hash ≠ 0

/-- The entry that is made from a record. -/
def IneryDiskBlockIndex.entry (d : IneryDiskBlockIndex) : IneryBlockIndex :=
  { d.toIneryBlockIndex with pprev := if d.hashPrev = 0 then none else some d.hashPrev }

/-- The entry that a hash has if it only occurs as the predecessor of a record. -/
def placeholder (ds : List IneryDiskBlockIndex) (h : Uint256) : Option IneryBlockIndex :=
  if h ≠ 0 ∧ h ∈ ds.map IneryDiskBlockIndex.hashPrev then some .new else none

omit [VarInt] [ClientVersion] [CompactSize] [Serial Int32] [Serial UInt32] [Serial UInt64] [Serial Uint256]
  [Serial IneryRegID] in
theorem placeholder_cons (d : IneryDiskBlockIndex) (ds : List IneryDiskBlockIndex) (h : Uint256) :
    placeholder (d :: ds) h =
      (if h ≠ 0 ∧ h = d.hashPrev then some IneryBlockIndex.new else none).or (placeholder ds h) := by
  unfold placeholder
  rw [List.map_cons]
  by_cases h0 : h = 0
  · simp [h0]
  by_cases hd : h = d.hashPrev
  · simp [← hd, h0]
  · simp [hd, h0]

variable [LawfulVarInt] [LawfulCompactSize] [StreamSerial Int32] [StreamSerial UInt32]
  [StreamSerial UInt64] [StreamSerial Uint256] [StreamSerial IneryRegID]

/-- What one record changes: its own entry, and the entry of its predecessor if there is none. -/
theorem loadRecord_write {d : IneryDiskBlockIndex} (hd : Loadable hash d) (m : BlockMap) :
    ∃ m', loadRecord hash d.write m = some m' ∧ ∀ h, m'.find? h =
      if h = d.getBlockHash hash then some d.reread.entry
      else (m.find? h).or (if h ≠ 0 ∧ h = d.hashPrev then some .new else none) := by
  have hread : IneryDiskBlockIndex.read d.write = some (d.reread, []) := by
    simpa using IneryDiskBlockIndex.read_write hd.height_nonneg hd.nFile_nonneg []
  have hfst : (insertBlockIndex (d.getBlockHash hash) m).1 = some (d.getBlockHash hash) := by
    rw [insertBlockIndex_fst, if_neg hd.hash_ne]
  refine ⟨(insertBlockIndex d.hashPrev (insertBlockIndex (d.getBlockHash hash) m).2).2.insert
    (d.getBlockHash hash) d.reread.entry, ?_, fun h => ?_⟩
  · rw [loadRecord, hread, IneryDiskBlockIndex.entry, ← insertBlockIndex_fst]
    change ((insertBlockIndex (d.getBlockHash hash) m).1 >>= fun pIndexNew => _) = _
    rw [hfst]
    rfl
  · rw [SortedMap.find?_insert, find?_insertBlockIndex, find?_insertBlockIndex]
    split_ifs <;> simp_all

/-- **A run over written records.** The entry of a record is made from it, and a hash that is only a
predecessor has a new entry. -/
theorem loadRecords_record {ds : List IneryDiskBlockIndex} (hds : ∀ d ∈ ds, Loadable hash d)
    (hnodup : (ds.map (IneryDiskBlockIndex.getBlockHash hash)).Nodup) {rest : List (Bytes × Bytes)}
    (hrest : ∀ r ∈ rest.head?, (getKeyPrefix .blockIndex).isPrefixOf r.1 = false) (m : BlockMap) :
    ∃ m', loadRecords hash (ds.map (diskRecord hash) ++ rest) m = some m' ∧
      (∀ d ∈ ds, m'.find? (d.getBlockHash hash) = some d.reread.entry) ∧
      ∀ h ∉ ds.map (IneryDiskBlockIndex.getBlockHash hash),
        m'.find? h = (m.find? h).or (placeholder ds h) := by
  induction ds generalizing m with
  | nil =>
    refine ⟨m, ?_, by simp, by simp [placeholder]⟩
    cases rest with
    | nil => rfl
    | cons r rest =>
      obtain ⟨key, value⟩ := r
      have hkey := hrest _ rfl
      simp [loadRecords, hkey]
  | cons d ds ih =>
    obtain ⟨hmem, hnodup⟩ := List.nodup_cons.mp hnodup
    obtain ⟨m₁, hm₁, hfind₁⟩ := loadRecord_write (hds d List.mem_cons_self) m
    obtain ⟨m₂, hm₂, hself, hother⟩ := ih (fun d' hd' => hds d' (List.mem_cons_of_mem _ hd')) hnodup m₁
    refine ⟨m₂, ?_, ?_, fun h hh => ?_⟩
    · rw [List.map_cons, List.cons_append]
      unfold loadRecords
      rw [if_pos (isPrefixOf_diskRecord hash d)]
      exact bind_eq_of_eq_some hm₁ hm₂
    · rintro d' hd'
      rcases List.mem_cons.mp hd' with rfl | hd'
      · -- the later records have other hashes and leave the entry as it is
        rw [hother _ hmem, hfind₁, if_pos rfl]
        rfl
      · exact hself d' hd'
    · rw [List.map_cons, List.mem_cons, not_or] at hh
      rw [hother h hh.2, hfind₁, if_neg hh.1, placeholder_cons, Option.or_assoc]

/-- **What a load finds.** The records are those that were written, one for each hash. -/
theorem loadRecords_foldl {ds : List IneryDiskBlockIndex} (hds : ∀ d ∈ ds, Loadable hash d)
    {db : LevelDb} (hdb : ∀ r ∈ db.entries, (getKeyPrefix .blockIndex).isPrefixOf r.1 = false)
    {pCursor : List (Bytes × Bytes)}
    (hcursor : Cursor (ds.foldl (writeBlockIndex hash) db) pCursor) :
    ∃ m, loadRecords hash pCursor ∅ = some m ∧ ∃ ds' ⊆ ds,
      (∀ d ∈ ds, d.getBlockHash hash ∈ ds'.map (IneryDiskBlockIndex.getBlockHash hash)) ∧
      (∀ d ∈ ds', m.find? (d.getBlockHash hash) = some d.reread.entry) ∧
      ∀ h ∉ ds'.map (IneryDiskBlockIndex.getBlockHash hash), m.find? h = placeholder ds' h := by
  obtain ⟨records, rest, rfl, hperm, hrest⟩ := hcursor
  have hrecords : records ∈ Set.range (List.map fun d : {d // d ∈ ds} => diskRecord hash d.1) := by
    rw [Set.range_list_map]
    intro r hr
    obtain ⟨hr, hpre⟩ := List.mem_filter.mp (hperm.mem_iff.mp hr)
    rcases mem_foldl_writeBlockIndex hr with hr | ⟨d, hd, rfl⟩
    · rw [hdb r hr] at hpre
      exact absurd hpre (by decide)
    · exact ⟨⟨d, hd⟩, rfl⟩
  obtain ⟨l, rfl⟩ := hrecords
  have hmap : l.map (fun d : {d // d ∈ ds} => diskRecord hash d.1) =
      (l.map Subtype.val).map (diskRecord hash) := by rw [List.map_map]; rfl
  rw [hmap] at hperm ⊢
  have hsub : l.map Subtype.val ⊆ ds := by
    intro d hd
    obtain ⟨d, -, rfl⟩ := List.mem_map.mp hd
    exact d.2
  generalize l.map Subtype.val = ds' at hperm hsub
  have hnodup : (ds'.map (IneryDiskBlockIndex.getBlockHash hash)).Nodup := by
    have hkeys := ((ds.foldl (writeBlockIndex hash) db).ascending.filter fun r =>
      (getKeyPrefix .blockIndex).isPrefixOf r.1).nodup_keys
    rw [← (hperm.map Prod.fst).nodup_iff, List.map_map] at hkeys
    refine List.Nodup.of_map (genDbKey .blockIndex) ?_
    rw [List.map_map]
    exact hkeys
  obtain ⟨m, hm, hself, hother⟩ := loadRecords_record (fun d hd => hds d (hsub hd)) hnodup hrest ∅
  refine ⟨m, hm, ds', hsub, fun d hd => ?_, hself, hother⟩
  have hsome : ((ds.foldl (writeBlockIndex hash) db).find? (diskRecord hash d).1).isSome :=
    isSome_foldl_writeBlockIndex (.inr (List.mem_map_of_mem hd))
  obtain ⟨value, hvalue⟩ := Option.isSome_iff_exists.mp hsome
  have hmem := hperm.mem_iff.mpr (List.mem_filter.mpr
    ⟨SortedMap.find?_eq_some_iff.mp hvalue, isPrefixOf_diskRecord hash d⟩)
  obtain ⟨d', hd', heq⟩ := List.mem_map.mp hmem
  refine List.mem_map.mpr ⟨d', hd', genDbKey_injective .blockIndex ?_⟩
  exact (Prod.ext_iff.mp heq).1

end Load

/-! ## Block trees -/

/-- A block over the transactions `Tx`, with what its index entry and its record add to it. -/
structure Node (Tx : Type) where
  block : IneryBlock Tx
  height : Int32
  nFile : Int32
  nDataPos : UInt32
  nUndoPos : UInt32
  nStatus : UInt32
  bpRegid : IneryRegID
deriving DecidableEq

namespace Node

variable {Tx : Type} (node : Node Tx)

/-- The entry of a block, made from it and linked to the entry of its parent. -/
def index : IneryBlockIndex :=
  { IneryBlockIndex.ofBlock node.block with
    pprev := if node.block.prevBlockHash = 0 then none else some node.block.prevBlockHash
    height := node.height
    nFile := node.nFile
    nDataPos := node.nDataPos
    nUndoPos := node.nUndoPos
    nStatus := node.nStatus }

/-- The record of a block. -/
def diskIndex : IneryDiskBlockIndex := .ofIndex node.index node.block node.bpRegid

/-- The entry agrees with the block in what is not copied as it is: the fuel fee fits into 32 bits, and
the height is the height of the block. -/
def Matches : Prop := node.block.nFuelFee.toNat < 2 ^ 32 ∧ node.height.toUInt32 = node.block.height

@[simp] theorem diskIndex_hashPrev : node.diskIndex.hashPrev = node.block.prevBlockHash := by
  change (node.index.pprev.getD 0) = _
  rw [index]
  split_ifs with h
  · exact h.symm
  · rfl

theorem sameHashed_iff : node.diskIndex.header.SameHashed node.block.toIneryBlockHeader ↔ node.Matches := by
  have hfee : node.block.getFuelFee.toUInt64 = node.block.nFuelFee ↔ node.block.nFuelFee.toNat < 2 ^ 32 := by
    rw [← UInt64.toNat_inj, UInt32.toNat_toUInt64, IneryBlockHeader.getFuelFee, UInt64.toNat_toUInt32]
    exact Nat.mod_eq_iff_lt (by decide)
  constructor
  · rintro ⟨-, -, -, -, -, hheight, hsame, -⟩
    exact ⟨hfee.mp hsame, hheight⟩
  · rintro ⟨hlt, hheight⟩
    exact ⟨rfl, node.diskIndex_hashPrev, rfl, rfl, rfl, hheight, hfee.mpr hlt, rfl⟩

/-- The entry of a block that the header of a record belongs to is the one of the block with the
height and the fuel fee of the record. -/
theorem matches_of_sameHashed {node node' : Node Tx} (hheight : node'.height = node.height)
    (h : node'.diskIndex.header.SameHashed node.block.toIneryBlockHeader) : node.Matches := by
  obtain ⟨-, -, -, -, -, hh, hfee, -⟩ := h
  refine ⟨?_, hheight ▸ hh⟩
  rw [← hfee]
  change node'.block.getFuelFee.toUInt64.toNat < 2 ^ 32
  rw [UInt32.toNat_toUInt64]
  exact node'.block.getFuelFee.toNat_lt

/-- The block is known to `mapBlockIndex` by its parent and its other fields are what a new entry has. -/
def IsNew (nodes : List (Node Tx)) (getHash : IneryBlockHeader → Uint256) : Prop :=
  node.block.prevBlockHash = 0 ∧
    (∃ child ∈ nodes, child.block.prevBlockHash = getHash node.block.toIneryBlockHeader) ∧
      node.height = 0 ∧ node.nStatus = 0 ∧ node.block.nTime = 0 ∧ node.block.nVersion = 0

/-- The entry of a block came back. -/
def Restored (mapBlockIndex : BlockMap) (getHash : IneryBlockHeader → Uint256) : Prop :=
  ∃ index ∈ mapBlockIndex.find? (getHash node.block.toIneryBlockHeader),
    index.pprev = node.index.pprev ∧ index.height = node.index.height ∧
      index.nStatus = node.index.nStatus ∧ index.nTime = node.index.nTime ∧
        index.nVersion = node.index.nVersion ∧ index.getBlockPos = node.index.getBlockPos ∧
          index.getUndoPos = node.index.getUndoPos

instance (mapBlockIndex : BlockMap) (getHash : IneryBlockHeader → Uint256) :
    Decidable (node.Restored mapBlockIndex getHash) := by
  unfold Restored
  infer_instance

theorem restored_of_entry {m : BlockMap} {getHash : IneryBlockHeader → Uint256}
    (h : m.find? (getHash node.block.toIneryBlockHeader) = some node.diskIndex.reread.entry) :
    node.Restored m getHash := by
  refine ⟨_, h, ?_, rfl, rfl, rfl, rfl, node.diskIndex.getPos_reread.1, node.diskIndex.getPos_reread.2⟩
  change (if node.diskIndex.hashPrev = 0 then none else some node.diskIndex.hashPrev) = _
  rw [diskIndex_hashPrev]
  rfl

theorem restored_new_iff {m : BlockMap} {getHash : IneryBlockHeader → Uint256}
    (h : m.find? (getHash node.block.toIneryBlockHeader) = some .new) :
    node.Restored m getHash ↔ node.block.prevBlockHash = 0 ∧ node.height = 0 ∧ node.nStatus = 0 ∧
      node.block.nTime = 0 ∧ node.block.nVersion = 0 := by
  unfold Restored
  rw [h]
  constructor
  · rintro ⟨_, ⟨⟩, hprev, hheight, hstatus, htime, hversion, -, -⟩
    refine ⟨?_, hheight.symm, hstatus.symm, htime.symm, hversion.symm⟩
    by_contra hne
    rw [index, if_neg hne] at hprev
    exact absurd hprev (by simp [IneryBlockIndex.new])
  · rintro ⟨hprev, hheight, hstatus, htime, hversion⟩
    refine ⟨_, rfl, ?_, hheight.symm, hstatus.symm, htime.symm, hversion.symm, ?_, ?_⟩
    · rw [index, if_pos hprev]
      rfl
    · simp [IneryBlockIndex.getBlockPos, index, hstatus, IneryBlockIndex.new]
    · simp [IneryBlockIndex.getUndoPos, index, hstatus, IneryBlockIndex.new]

end Node

/-- A tree of blocks: each is the root or has its parent in the tree, and the files and the heights of
the entries are not negative. -/
structure BlockTree (Tx : Type) (getHash : IneryBlockHeader → Uint256) where
  nodes : List (Node Tx)
  nodup : (nodes.map fun node => getHash node.block.toIneryBlockHeader).Nodup
  linked : ∀ node ∈ nodes, node.block.prevBlockHash = 0 ∨
    ∃ parent ∈ nodes, node.block.prevBlockHash = getHash parent.block.toIneryBlockHeader
  root_unique : ∀ node ∈ nodes, ∀ node' ∈ nodes,
    node.block.prevBlockHash = 0 → node'.block.prevBlockHash = 0 → node = node'
  height_nonneg : ∀ node ∈ nodes, 0 ≤ node.height.toInt
  nFile_nonneg : ∀ node ∈ nodes, 0 ≤ node.nFile.toInt

/-- The headers that are hashed when a tree is stored and loaded. -/
def headers {Tx : Type} (nodes : List (Node Tx)) : List IneryBlockHeader :=
  nodes.flatMap fun node => [node.block.toIneryBlockHeader, node.diskIndex.header]

theorem mem_headers {Tx : Type} {nodes : List (Node Tx)} {node : Node Tx} (hnode : node ∈ nodes) :
    node.block.toIneryBlockHeader ∈ headers nodes ∧ node.diskIndex.header ∈ headers nodes :=
  ⟨List.mem_flatMap.mpr ⟨node, hnode, by simp⟩, List.mem_flatMap.mpr ⟨node, hnode, by simp⟩⟩

section Tree

variable [Serial Int32] [Serial UInt32] [Serial UInt64] [Serial Uint256]

/-- `hash` is free of collisions on some headers, and none of them has the null hash. -/
structure CollisionFree (hash : Bytes → Uint256) (headers : List IneryBlockHeader) : Prop where
  eq_of_eq : ∀ h ∈ headers, ∀ h' ∈ headers,
    h.computeSignatureHash hash = h'.computeSignatureHash hash → h.hashed = h'.hashed
  ne_zero : ∀ h ∈ headers, h.computeSignatureHash hash ≠ 0

variable {Tx : Type} {hash : Bytes → Uint256}

theorem BlockTree.loadable (tree : BlockTree Tx (IneryBlockHeader.computeSignatureHash hash))
    (hhash : CollisionFree hash (headers tree.nodes)) {node : Node Tx} (hnode : node ∈ tree.nodes) :
    Loadable hash node.diskIndex where
  height_nonneg := tree.height_nonneg node hnode
  nFile_nonneg := tree.nFile_nonneg node hnode
  hash_ne := hhash.ne_zero _ (mem_headers hnode).2

variable [StreamSerial Int32] [StreamSerial UInt32] [StreamSerial UInt64] [StreamSerial Uint256]

theorem CollisionFree.sameHashed {l : List IneryBlockHeader} (hhash : CollisionFree hash l)
    {h h' : IneryBlockHeader} (hh : h ∈ l) (hh' : h' ∈ l)
    (heq : h.computeSignatureHash hash = h'.computeSignatureHash hash) : h.SameHashed h' :=
  IneryBlockHeader.hashed_eq_iff.mp (hhash.eq_of_eq h hh h' hh' heq)

theorem Node.Matches.getBlockHash_eq {node : Node Tx} (h : node.Matches) :
    node.diskIndex.getBlockHash hash = node.block.computeSignatureHash hash :=
  congrArg hash (IneryBlockHeader.hashed_eq_iff.mpr (node.sameHashed_iff.mpr h))

variable (tree : BlockTree Tx (IneryBlockHeader.computeSignatureHash hash))
  (hhash : CollisionFree hash (headers tree.nodes)) {node node' : Node Tx}

include hhash

theorem BlockTree.eq_of_getBlockHash_eq (hnode : node ∈ tree.nodes) (hnode' : node' ∈ tree.nodes)
    (hcase : node'.Matches ∨ node'.IsNew tree.nodes (IneryBlockHeader.computeSignatureHash hash))
    (heq : node'.diskIndex.getBlockHash hash = node.block.computeSignatureHash hash) : node' = node := by
  rcases hcase with hm | ⟨hroot, -⟩
  · rw [hm.getBlockHash_eq] at heq
    exact List.inj_on_of_nodup_map tree.nodup hnode' hnode heq
  · have hsame := hhash.sameHashed (mem_headers hnode').2 (mem_headers hnode).1 heq
    refine tree.root_unique _ hnode' _ hnode hroot ?_
    exact hsame.2.1.symm.trans (node'.diskIndex_hashPrev.trans hroot)

variable [VarInt] [ClientVersion] [CompactSize] [Serial IneryRegID]
  [LawfulVarInt] [LawfulCompactSize] [StreamSerial IneryRegID]

/-- **Reloading the block index.** Whatever order the records of a stored tree are read in, its entries
come back exactly if the fuel fee of every block fits into 32 bits and the height of every entry is the
height of its block, but for a root that is only found as a parent and has nothing to come back. -/
theorem loadBlockIndexes_restored_iff {db : LevelDb}
    (hdb : ∀ r ∈ db.entries, (getKeyPrefix .blockIndex).isPrefixOf r.1 = false)
    {pCursor : List (Bytes × Bytes)}
    (hcursor : Cursor ((tree.nodes.map Node.diskIndex).foldl (writeBlockIndex hash) db) pCursor) :
    ∃ m, loadRecords hash pCursor ∅ = some m ∧
      ((∀ node ∈ tree.nodes, node.Restored m (IneryBlockHeader.computeSignatureHash hash)) ↔
        ∀ node ∈ tree.nodes,
          node.Matches ∨ node.IsNew tree.nodes (IneryBlockHeader.computeSignatureHash hash)) := by
  have hds : ∀ d ∈ tree.nodes.map Node.diskIndex, Loadable hash d := by
    intro d hd
    obtain ⟨node, hnode, rfl⟩ := List.mem_map.mp hd
    exact tree.loadable hhash hnode
  obtain ⟨m, hm, ds, hsub, hall, hself, hother⟩ := loadRecords_foldl hds hdb hcursor
  -- every record that was found is the one of a block
  have hfrom : ∀ d ∈ ds, ∃ node ∈ tree.nodes, node.diskIndex = d := fun d hd =>
    List.mem_map.mp (hsub hd)
  refine ⟨m, hm, fun hres node hnode => ?_, fun hcase node hnode => ?_⟩
  · by_cases hmem : node.block.computeSignatureHash hash ∈ ds.map (IneryDiskBlockIndex.getBlockHash hash)
    · obtain ⟨d, hd, heq⟩ := List.mem_map.mp hmem
      obtain ⟨node', hnode', rfl⟩ := hfrom d hd
      obtain ⟨index, hindex, -, hheight, -⟩ := hres node hnode
      rw [← heq, hself _ hd] at hindex
      obtain rfl := Option.some.inj hindex
      exact .inl (Node.matches_of_sameHashed hheight
        (hhash.sameHashed (mem_headers hnode').2 (mem_headers hnode).1 heq))
    · obtain ⟨index, hindex, hrest⟩ := hres node hnode
      have hnew := hother _ hmem
      rw [Option.mem_def.mp hindex, placeholder] at hnew
      split_ifs at hnew with hprev
      obtain rfl := Option.some.inj hnew
      obtain ⟨d, hd, hchild⟩ := List.mem_map.mp hprev.2
      obtain ⟨child, hmemchild, rfl⟩ := hfrom d hd
      obtain ⟨hroot, hfields⟩ := (node.restored_new_iff hindex).mp (hres node hnode)
      rw [child.diskIndex_hashPrev] at hchild
      exact .inr ⟨hroot, ⟨child, hmemchild, hchild⟩, hfields⟩
  · by_cases hmem : node.block.computeSignatureHash hash ∈ ds.map (IneryDiskBlockIndex.getBlockHash hash)
    · obtain ⟨d, hd, heq⟩ := List.mem_map.mp hmem
      obtain ⟨node', hnode', rfl⟩ := hfrom d hd
      obtain rfl := tree.eq_of_getBlockHash_eq hhash hnode hnode' (hcase _ hnode') heq
      exact node'.restored_of_entry (heq ▸ hself _ hd)
    · rcases hcase node hnode with hm | ⟨hroot, ⟨child, hchild, hprev⟩, hfields⟩
      · exact absurd (hm.getBlockHash_eq ▸ hall _ (List.mem_map_of_mem hnode)) hmem
      · -- a record with the header of the child is there, and it names the root
        obtain ⟨d, hd, heq⟩ := List.mem_map.mp (hall _ (List.mem_map_of_mem hchild))
        obtain ⟨child', hchild', rfl⟩ := hfrom d hd
        have hsame := hhash.sameHashed (mem_headers hchild').2 (mem_headers hchild).2 heq
        have hin : node.block.computeSignatureHash hash ∈ ds.map IneryDiskBlockIndex.hashPrev :=
          List.mem_map.mpr ⟨_, hd, hsame.2.1.trans (child.diskIndex_hashPrev.trans hprev)⟩
        have hfind := hother _ hmem
        rw [placeholder, if_pos ⟨hhash.ne_zero _ (mem_headers hnode).1, hin⟩] at hfind
        exact (node.restored_new_iff hfind).mpr ⟨hroot, hfields⟩

end Tree

/-! ## Two trees -/

namespace LittleEndian

open scoped BigEndianKeys

/-- A hash function that is free of collisions on the blocks below. -/
def sumHash (bytes : Bytes) : Uint256 := Fin.ofNat _ (1 + (bytes.map fun b => b.val).sum)

/-- A first block that burns `nFuelFee`. -/
def genesis (nFuelFee : UInt64) : Node Unit where
  block := ⟨⟨1, 0, 7, 5, 0, 0, nFuelFee, 100, []⟩, [()]⟩
  height := 0
  nFile := 1
  nDataPos := 300
  nUndoPos := 40
  nStatus := 24
  bpRegid := toLex (0, 1)

/-- A block on `genesis 9`, of which no undo data is stored. -/
def second : Node Unit where
  block := ⟨⟨1, sumHash (genesis 9).block.hashed, 8, 6, 0, 1, 11, 100, [3]⟩, [(), ()]⟩
  height := 1
  nFile := 1
  nDataPos := 900
  nUndoPos := 50
  nStatus := 8
  bpRegid := toLex (0, 2)

def twoBlocks : BlockTree Unit (IneryBlockHeader.computeSignatureHash sumHash) where
  nodes := [second, genesis 9]
  nodup := by decide +kernel
  linked := by decide +kernel
  root_unique := by decide +kernel
  height_nonneg := by decide +kernel
  nFile_nonneg := by decide +kernel

theorem loadBlockIndexes_restored_iff_twoBlocks :
    ∃ m, loadBlockIndexes sumHash
      ((twoBlocks.nodes.map Node.diskIndex).foldl (writeBlockIndex sumHash) ∅) ∅ = some m ∧
        ∀ node ∈ twoBlocks.nodes, node.Restored m (IneryBlockHeader.computeSignatureHash sumHash) := by
  have hdb : ∀ r ∈ (∅ : LevelDb).entries, (getKeyPrefix .blockIndex).isPrefixOf r.1 = false :=
    fun r hr => absurd hr List.not_mem_nil
  obtain ⟨m, hm, hiff⟩ := loadBlockIndexes_restored_iff twoBlocks
    ⟨by decide +kernel, by decide +kernel⟩ hdb (cursor_lowerBound _)
  have hmatches : ∀ node ∈ twoBlocks.nodes,
      node.block.nFuelFee.toNat < 2 ^ 32 ∧ node.height.toUInt32 = node.block.height := by decide +kernel
  exact ⟨m, hm, hiff.mpr fun node hnode => .inl (hmatches node hnode)⟩

/-- A tree of one block, with a fuel fee of `2 ^ 32`. -/
def highFee : BlockTree Unit (IneryBlockHeader.computeSignatureHash sumHash) where
  nodes := [genesis 4294967296]
  nodup := by decide +kernel
  linked := by decide +kernel
  root_unique := by decide +kernel
  height_nonneg := by decide +kernel
  nFile_nonneg := by decide +kernel

/-- **The entry of a block with a fuel fee of `2 ^ 32` is not found under the hash of the block.** -/
theorem highFee_not_restored :
    CollisionFree sumHash (headers highFee.nodes) ∧
      ∃ m ∈ loadBlockIndexes sumHash
        ((highFee.nodes.map Node.diskIndex).foldl (writeBlockIndex sumHash) ∅) ∅,
          ¬∀ node ∈ highFee.nodes, node.Restored m (IneryBlockHeader.computeSignatureHash sumHash) :=
  ⟨⟨by decide +kernel, by decide +kernel⟩, by decide +kernel⟩

end LittleEndian

end Inery
