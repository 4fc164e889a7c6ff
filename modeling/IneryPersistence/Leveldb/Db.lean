import IneryPersistence.Leveldb.Log
import IneryPersistence.Leveldb.MemTable
import IneryPersistence.Lib.Runs

/-!
# Group commit

Writers wait in a queue; the one at its front writes the batches of many in one group, first to the log
and then to the memtable, and other writers, readers and the compaction run meanwhile. A full memtable is set
aside with its log until it has been written to a table. A table stands here for the memtable that it was written
from; errors of files, writers without a batch, which only ask for room, and compactions of tables are left out.

* `Waiting`, `BuildBatchGroup`: the writers in the queue, and the batch of a group;
* `DBImpl`, `DbEvent`, `DBImpl.step`: what the writer at the front and the others do;
* `Views`: what every snapshot reads in memtables and tables;
* **`buildBatchGroup_spec`**: a group is a first part of the queue, and its batch has their updates.
-/

namespace Inery.Leveldb

open KV

/-! ## Batches -/

/-- `IneryLevelDBBatch::Write` and `Erase`. -/
def WriteBatch.addOp (b : WriteBatch) : BatchOp → WriteBatch
  | .put key value => b.Put key value
  | .delete key => b.Delete key

def WriteBatch.ofOps (ops : List BatchOp) : WriteBatch := ops.foldl WriteBatch.addOp .Clear

/-- `WriteBatchInternal::ByteSize`. -/
def WriteBatch.ByteSize (b : WriteBatch) : ℕ := b.rep_.length

/-- A sequence number plus a count. -/
def addCount (s : UInt64) (n : Int32) : UInt64 := s + n.toInt64.toUInt64

/-! ## Writers -/

/-- `DBImpl::Writer`, without its condition variable. -/
structure Waiting where
  batch : WriteBatch
  sync : Bool

/-- The updates of a writer. -/
def Waiting.updates (w : Waiting) : List BatchOp := w.batch.Iterate.1

/-- The loop of `BuildBatchGroup`, with the writers that have been taken. `own` says that `result` is still
the batch of the first writer. -/
def buildGroup (first : Waiting) (max_size : ℕ) :
    ℕ → WriteBatch → Bool → List Waiting → List Waiting → WriteBatch × List Waiting
  | _, result, _, taken, [] => (result, taken)
  | size, result, own, taken, w :: rest =>
    if w.sync ∧ ¬ first.sync then (result, taken)
    else if max_size < size + w.batch.ByteSize then (result, taken)
    else
      let result := if own then WriteBatch.Clear.Append result else result
      buildGroup first max_size (size + w.batch.ByteSize) (result.Append w.batch) false (taken ++ [w]) rest

/-- `BuildBatchGroup`: the batch of the group, and its writers. -/
def BuildBatchGroup (first : Waiting) (rest : List Waiting) : WriteBatch × List Waiting :=
  let size := first.batch.ByteSize
  let max_size := if size ≤ 128 <<< 10 then size + 128 <<< 10 else 1 <<< 20
  buildGroup first max_size size first.batch true [first] rest

/-- A log file: its writer, and how many of its bytes have been synced. -/
structure LogFile where
  log : Writer
  synced : ℕ

/-- The variables of `Write` while a group is written, with those of `MemTableInserter`. -/
structure Writing where
  updates : WriteBatch
  group : List Waiting
  /-- The log has to be synced before the updates are inserted. -/
  toSync : Bool
  sequence : UInt64
  /-- The updates that have not been inserted. -/
  pending : List BatchOp

/-- The part of `DBImpl` that a write reads and changes. -/
structure DBImpl where
  mem_ : MemTable
  log_ : LogFile
  /-- `imm_`, with the log that it was written to. -/
  imm_ : Option (MemTable × LogFile)
  /-- The tables, the newest first, as the memtables that they were written from. -/
  tables : List MemTable
  /-- `versions_->LastSequence()`. -/
  last_sequence : UInt64
  /-- The last sequence number in the descriptor. -/
  manifest_sequence : UInt64
  writers_ : List Waiting
  writing : Option Writing
  /-- The writers that were answered, with the status that `Write` returned. -/
  returned : List (Waiting × Status)

/-- A new database. -/
def DBImpl.new : DBImpl := ⟨.new, ⟨.new, 0⟩, none, [], 0, 0, [], none, []⟩

/-! ## Writes -/

/-- The writer at the front of the queue builds a group and adds it to the log. -/
def DBImpl.logGroup (db : DBImpl) : Option DBImpl :=
  match db.writing, db.writers_ with
  | none, first :: rest =>
    let group := BuildBatchGroup first rest
    let updates := group.1.SetSequence (db.last_sequence + 1)
    some { db with
      log_ := { db.log_ with log := db.log_.log.AddRecord updates.rep_ }
      writing := some ⟨updates, group.2, first.sync, updates.Sequence, updates.Iterate.1⟩ }
  | _, _ => none

/-- It syncs the log, when its options ask for it. -/
def DBImpl.syncLog (db : DBImpl) : Option DBImpl :=
  db.writing.bind fun w =>
    if w.toSync then
      some { db with
        log_ := { db.log_ with synced := db.log_.log.dest_.length }
        writing := some { w with toSync := false } }
    else none

/-- `InsertInto` inserts one update. -/
def DBImpl.insertUpdate (db : DBImpl) : Option DBImpl :=
  db.writing.bind fun w =>
    match w.toSync, w.pending with
    | false, op :: ops =>
      some { db with
        mem_ := db.mem_.addUpdate w.sequence op
        writing := some { w with sequence := w.sequence + 1, pending := ops } }
    | _, _ => none

/-- It sets the last sequence number and answers the writers of the group. -/
def DBImpl.finishGroup (db : DBImpl) : Option DBImpl :=
  db.writing.bind fun w =>
    match w.toSync, w.pending with
    | false, [] =>
      some { db with
        last_sequence := addCount db.last_sequence w.updates.Count
        writers_ := db.writers_.drop w.group.length
        writing := none
        returned := db.returned ++ w.group.map fun r => (r, w.updates.Iterate.2) }
    | _, _ => none

/-- `MakeRoomForWrite`, before a group, when the memtable is full and the one before it has been written: a new
log, and a new memtable. -/
def DBImpl.switchMemTable (db : DBImpl) : Option DBImpl :=
  match db.writing, db.imm_ with
  | none, none => some { db with imm_ := some (db.mem_, db.log_), mem_ := .new, log_ := ⟨.new, 0⟩ }
  | _, _ => none

/-- `CompactMemTable`: the descriptor names the table of `imm_`, which is kept as the memtable it is written from,
and its log is no longer needed. That writing the table fails is left out. -/
def DBImpl.CompactMemTable (db : DBImpl) : Option DBImpl :=
  db.imm_.map fun imm =>
    { db with tables := imm.1 :: db.tables, imm_ := none, manifest_sequence := db.last_sequence }

inductive DbEvent
  | enqueue (ops : List BatchOp) (sync : Bool)
  | logGroup
  | syncLog
  | insertUpdate
  | finishGroup
  | switchMemTable
  | compactMemTable

def DBImpl.step (db : DBImpl) : DbEvent → Option DBImpl
  | .enqueue ops sync => some { db with writers_ := db.writers_ ++ [⟨.ofOps ops, sync⟩] }
  | .logGroup => db.logGroup
  | .syncLog => db.syncLog
  | .insertUpdate => db.insertUpdate
  | .finishGroup => db.finishGroup
  | .switchMemTable => db.switchMemTable
  | .compactMemTable => db.CompactMemTable

/-! ## Reads -/

/-- What is read of a key in memtables and tables, the newest first. A table is read as the memtable it was written
from; no table is made of others. -/
def readTables (key : Bytes) (snap : UInt64) : List MemTable → Option Bytes
  | [] => none
  | m :: ms => overlay (m.Get key snap) (readTables key snap ms)

/-- `DBImpl::Get`, at a snapshot. -/
def DBImpl.GetAt (db : DBImpl) (key : Bytes) (snap : UInt64) : Option Bytes :=
  readTables key snap (db.mem_ :: ((db.imm_.map Prod.fst).toList ++ db.tables))

/-- `DBImpl::Get`. -/
def DBImpl.Get (db : DBImpl) (key : Bytes) : Option Bytes := db.GetAt key db.last_sequence

/-! ## What snapshots read -/

/-- What the tables hold at every snapshot. -/
def Views (tables : List MemTable) (view : ℕ → LevelDb) : Prop :=
  ∀ (key : Bytes) (snap : UInt64), key.length + 8 < 2 ^ 32 → snap.toNat < 2 ^ 56 →
    readTables key snap tables = (view snap.toNat).find? key

/-- The updates with the numbers `n + 1`, `n + 2`, … after a view. -/
def extendView (n : ℕ) (ops : List BatchOp) (view : ℕ → LevelDb) (snap : ℕ) : LevelDb :=
  (ops.take (snap - n)).foldl BatchOp.apply (view snap)

/-- The updates with the numbers 1, 2, …. -/
def viewOf (ops : List BatchOp) : ℕ → LevelDb := extendView 0 ops fun _ => ∅

theorem extendView_append (n : ℕ) (ops ops' : List BatchOp) (view : ℕ → LevelDb) :
    extendView n (ops ++ ops') view = extendView (n + ops.length) ops' (extendView n ops view) := by
  funext snap
  rw [extendView, List.take_append, List.foldl_append, Nat.sub_sub]
  rfl

@[simp] theorem extendView_nil (n : ℕ) (view : ℕ → LevelDb) : extendView n [] view = view := by
  funext snap
  rw [extendView, List.take_nil]
  rfl

theorem viewOf_append (ops ops' : List BatchOp) :
    viewOf (ops ++ ops') = extendView ops.length ops' (viewOf ops) := by
  rw [viewOf, extendView_append, Nat.zero_add]
  rfl

theorem extendView_of_le {n snap : ℕ} {ops : List BatchOp} (h : n + ops.length ≤ snap) (view : ℕ → LevelDb) :
    extendView n ops view snap = ops.foldl BatchOp.apply (view snap) := by
  rw [extendView, List.take_of_length_le (by omega)]

theorem viewOf_apply (ops : List BatchOp) (snap : ℕ) : viewOf ops snap = (ops.take snap).foldl BatchOp.apply ∅ := rfl

theorem views_nil : Views [] (viewOf []) := fun key snap _ _ => by
  rw [viewOf_apply, List.take_nil]
  rfl

/-- A memtable with the updates after `n` others. -/
def memOf (n : ℕ) (ops : List BatchOp) : MemTable := MemTable.new.addUpdates (UInt64.ofNat (n + 1)) ops

theorem toNat_sequence {n : ℕ} (h : n < 2 ^ 56) : (UInt64.ofNat (n + 1)).toNat = n + 1 := by
  rw [UInt64.toNat_ofNat']
  exact Nat.mod_eq_of_lt (by omega)

/-- **The next updates in a memtable** before the tables. -/
theorem Views.cons {tables : List MemTable} {view : ℕ → LevelDb} (h : Views tables view) {n : ℕ} {ops : List BatchOp}
    (hlen : n + ops.length < 2 ^ 56) (hops : ∀ op ∈ ops, WriteBatch.SizesFit op) :
    Views (memOf n ops :: tables) (extendView n ops view) := by
  intro key snap hkey hsnap
  have hseq := toNat_sequence (lt_of_le_of_lt (Nat.le_add_right n ops.length) hlen)
  have hfit : (UInt64.ofNat (n + 1)).toNat + ops.length ≤ 2 ^ 56 := by
    rw [hseq]
    omega
  obtain ⟨vs, hshows, -, hread⟩ := MemTable.shows_new.addUpdates hfit (before_empty _) hops
  have hcount : snap.toNat + 1 - (n + 1) = snap.toNat - n := Nat.add_sub_add_right _ _ _
  have hnew : ∀ older, readOver ∅ key snap.toNat older = older := fun _ => rfl
  rw [readTables, memOf, hshows.overlay_get hkey hsnap, hread, hseq, hcount, hnew, h key snap hkey hsnap, extendView,
    find?_foldl_apply]

theorem addUpdates_append (m : MemTable) (s : UInt64) (ops ops' : List BatchOp) :
    m.addUpdates s (ops ++ ops') = (m.addUpdates s ops).addUpdates (s + UInt64.ofNat ops.length) ops' := by
  induction ops generalizing m s with
  | nil =>
    have hzero : s + UInt64.ofNat 0 = s := UInt64.add_zero s
    rw [List.nil_append, List.length_nil, hzero]
    rfl
  | cons op ops ih =>
    have hnext : s + UInt64.ofNat (ops.length + 1) = s + 1 + UInt64.ofNat ops.length := by
      rw [UInt64.ofNat_add, UInt64.add_assoc, UInt64.add_comm 1]
      rfl
    rw [List.cons_append, List.length_cons, hnext]
    exact ih (m.addUpdate s op) (s + 1)

theorem memOf_append (n : ℕ) (ops ops' : List BatchOp) :
    memOf n (ops ++ ops') = (memOf n ops).addUpdates (UInt64.ofNat (n + ops.length + 1)) ops' := by
  have hnext : UInt64.ofNat (n + 1) + UInt64.ofNat ops.length = UInt64.ofNat (n + ops.length + 1) := by
    rw [← UInt64.ofNat_add, Nat.add_right_comm]
  rw [memOf, addUpdates_append, hnext]
  rfl

/-! ## Groups -/

theorem WriteBatch.encodes_ofOps (ops : List BatchOp) : (WriteBatch.ofOps ops).Encodes 0 ops := by
  have hadd : ∀ (b : WriteBatch) (done ops : List BatchOp), b.Encodes 0 done →
      (ops.foldl WriteBatch.addOp b).Encodes 0 (done ++ ops) := by
    intro b done ops h
    induction ops generalizing b done with
    | nil =>
      rw [List.append_nil]
      exact h
    | cons op ops ih =>
      have hop : (b.addOp op).Encodes 0 (done ++ [op]) := by
        cases op with
        | put key value => exact h.put key value
        | delete key => exact h.delete key
      have hrest := ih (b.addOp op) (done ++ [op]) hop
      rwa [List.append_assoc] at hrest
  exact hadd .Clear [] ops encodes_clear

theorem WriteBatch.Encodes.length_le {b : WriteBatch} {seq : UInt64} {ops : List BatchOp} (h : b.Encodes seq ops) :
    ops.length ≤ b.ByteSize := by
  have hbytes : ops.length ≤ (ops.flatMap updateBytes).length := by
    clear h
    induction ops with
    | nil => exact Nat.zero_le _
    | cons op ops ih =>
      have hop : 1 ≤ (updateBytes op).length := by
        cases op <;> rw [updateBytes, List.length_cons] <;> omega
      rw [List.flatMap_cons, List.length_append, List.length_cons]
      omega
  have hdrop : (b.rep_.drop kHeader).length ≤ b.rep_.length := by
    rw [List.length_drop]
    omega
  rw [h.drop_header] at hdrop
  exact hbytes.trans hdrop

/-- A writer whose batch holds its updates. -/
structure Waiting.Fits (w : Waiting) : Prop where
  encodes : w.batch.Encodes 0 w.updates
  sizes : ∀ op ∈ w.updates, WriteBatch.SizesFit op
  byteSize_lt : w.batch.ByteSize < 2 ^ 31

theorem Waiting.updates_ofOps {ops : List BatchOp} (h : ∀ op ∈ ops, WriteBatch.SizesFit op) (sync : Bool) :
    Waiting.updates ⟨.ofOps ops, sync⟩ = ops := congrArg Prod.fst ((WriteBatch.encodes_ofOps ops).iterate h)

theorem Waiting.fits_ofOps {ops : List BatchOp} (h : ∀ op ∈ ops, WriteBatch.SizesFit op)
    (hsize : (WriteBatch.ofOps ops).ByteSize < 2 ^ 31) (sync : Bool) : Waiting.Fits ⟨.ofOps ops, sync⟩ := by
  refine ⟨?_, ?_, hsize⟩ <;> rw [Waiting.updates_ofOps h]
  · exact WriteBatch.encodes_ofOps ops
  · exact h

/-- The updates of the writers of a group. -/
def groupOps (group : List Waiting) : List BatchOp := group.flatMap Waiting.updates

/-- The batch has the updates of the writers that were taken and of some that follow; a writer that asks for a
sync follows only a first one that does. -/
def IsGroup (first : Waiting) (taken rest : List Waiting) (r : WriteBatch × List Waiting) : Prop :=
  ∃ more, more <+: rest ∧ r.2 = taken ++ more ∧ r.1.Encodes 0 (groupOps r.2) ∧ (groupOps r.2).length < 2 ^ 31 ∧
    ∀ w ∈ more, w.sync = true → first.sync = true

theorem isGroup_self (first : Waiting) {taken : List Waiting} (rest : List Waiting) {result : WriteBatch}
    (hresult : result.Encodes 0 (groupOps taken)) (hlen : (groupOps taken).length < 2 ^ 31) :
    IsGroup first taken rest (result, taken) :=
  ⟨[], List.nil_prefix, (List.append_nil _).symm, hresult, hlen, fun w hw => by cases hw⟩

theorem IsGroup.cons {first w : Waiting} {taken rest : List Waiting} {r : WriteBatch × List Waiting}
    (h : IsGroup first (taken ++ [w]) rest r) (hsync : w.sync = true → first.sync = true) :
    IsGroup first taken (w :: rest) r := by
  obtain ⟨more, hpre, htaken, hbatch, hlen, hmore⟩ := h
  refine ⟨w :: more, (List.prefix_cons_inj w).mpr hpre, by rw [htaken, List.append_assoc]; rfl, hbatch, hlen,
    fun w' hw' hs => ?_⟩
  rcases List.mem_cons.mp hw' with rfl | hw'
  · exact hsync hs
  · exact hmore w' hw' hs

theorem groupOps_append (group group' : List Waiting) :
    groupOps (group ++ group') = groupOps group ++ groupOps group' := List.flatMap_append

theorem isGroup_buildGroup {first : Waiting} {max_size : ℕ} (hmax : max_size < 2 ^ 31) {size : ℕ}
    {result : WriteBatch} (own : Bool) {taken rest : List Waiting} (hresult : result.Encodes 0 (groupOps taken))
    (hsize : (groupOps taken).length ≤ size ∧ size < 2 ^ 31) (hrest : ∀ w ∈ rest, w.Fits) :
    IsGroup first taken rest (buildGroup first max_size size result own taken rest) := by
  have hstop := isGroup_self first rest hresult (lt_of_le_of_lt hsize.1 hsize.2)
  induction rest generalizing size result own taken with
  | nil => exact hstop
  | cons w rest ih =>
    rw [buildGroup]
    by_cases hsync : w.sync = true ∧ ¬ first.sync = true
    · rw [if_pos hsync]
      exact hstop
    by_cases hlarge : max_size < size + w.batch.ByteSize
    · rw [if_neg hsync, if_pos hlarge]
      exact hstop
    · rw [if_neg hsync, if_neg hlarge]
      have hw := hrest w List.mem_cons_self
      have hops : groupOps (taken ++ [w]) = groupOps taken ++ w.updates := by
        rw [groupOps_append, groupOps, groupOps, List.flatMap_singleton]
      have hswitch : (if own then WriteBatch.Clear.Append result else result).Encodes 0 (groupOps taken) := by
        split_ifs
        · exact WriteBatch.encodes_clear.append hresult
        · exact hresult
      have hresult' := hswitch.append hw.encodes
      rw [← hops] at hresult'
      have hsize' : (groupOps (taken ++ [w])).length ≤ size + w.batch.ByteSize ∧
          size + w.batch.ByteSize < 2 ^ 31 := by
        rw [hops, List.length_append]
        exact ⟨Nat.add_le_add hsize.1 hw.encodes.length_le, lt_of_le_of_lt (not_lt.mp hlarge) hmax⟩
      have hgroup := ih false hresult' hsize' (fun w' hw' => hrest w' (List.mem_cons_of_mem _ hw'))
        (isGroup_self first rest hresult' (lt_of_le_of_lt hsize'.1 hsize'.2))
      exact hgroup.cons fun hs => by_contra fun hfirst => hsync ⟨hs, hfirst⟩

/-- **A group is a first part of the queue**, and its batch has their updates. -/
theorem buildBatchGroup_spec {first : Waiting} {rest : List Waiting} (h : ∀ w ∈ first :: rest, w.Fits) :
    (∃ more, more <+: rest ∧ (BuildBatchGroup first rest).2 = first :: more) ∧
      (BuildBatchGroup first rest).1.Encodes 0 (groupOps (BuildBatchGroup first rest).2) ∧
      (groupOps (BuildBatchGroup first rest).2).length < 2 ^ 31 ∧
      ∀ w ∈ (BuildBatchGroup first rest).2, w.sync = true → first.sync = true := by
  have hfirst := h first List.mem_cons_self
  have hops : groupOps [first] = first.updates := List.flatMap_singleton _ _
  have hmax :
      (if first.batch.ByteSize ≤ 128 <<< 10 then first.batch.ByteSize + 128 <<< 10 else 1 <<< 20) < 2 ^ 31 := by
    have hshift : 128 <<< 10 = 131072 ∧ 1 <<< 20 = 1048576 := by decide
    rw [hshift.1, hshift.2]
    split_ifs <;> omega
  have hgroup : IsGroup first [first] rest (BuildBatchGroup first rest) :=
    isGroup_buildGroup hmax true (hops ▸ hfirst.encodes) ⟨hops ▸ hfirst.encodes.length_le, hfirst.byteSize_lt⟩
      fun w hw => h w (List.mem_cons_of_mem _ hw)
  obtain ⟨more, hpre, htaken, hbatch, hlen, hmore⟩ := hgroup
  refine ⟨⟨more, hpre, htaken⟩, hbatch, hlen, fun w hw => ?_⟩
  · rw [htaken] at hw
    rcases List.mem_cons.mp hw with rfl | hw
    · exact id
    · exact hmore w hw

end Inery.Leveldb
