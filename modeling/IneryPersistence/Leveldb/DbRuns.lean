import IneryPersistence.Leveldb.Db
import IneryPersistence.Leveldb.LogRecovery

/-!
# Runs of writers, readers and the compaction

* `groupRecord`, `logOf`: what the log holds of groups;
* `LogFile.Holds`, `Writing.Holds`, `DBImpl.Holds`: the groups that tables, memtables and logs hold;
* `DBImpl.Holds.step`: every event keeps them;
* **`get_serial`**: the queue is served in order, and a snapshot reads the updates that it has.
-/

namespace Inery.Leveldb

open KV

/-! ## Logs of groups -/

/-- The updates of groups. -/
def allOps (groups : List (List Waiting)) : List BatchOp := groupOps groups.flatten

theorem allOps_append (groups groups' : List (List Waiting)) :
    allOps (groups ++ groups') = allOps groups ++ allOps groups' := by
  rw [allOps, List.flatten_append, groupOps_append]
  rfl

theorem allOps_singleton (group : List Waiting) : allOps [group] = groupOps group := by
  rw [allOps, List.flatten_singleton]

/-- The record of a group that follows `n` updates. -/
def groupRecord (n : ℕ) (ops : List BatchOp) : Bytes :=
  EncodeFixed64 (UInt64.ofNat (n + 1)) ++
    (EncodeFixed32 (Int32.ofNat ops.length).toUInt32 ++ ops.flatMap WriteBatch.updateBytes)

/-- The records of groups, the first of which follows `n` updates. -/
def groupRecords (n : ℕ) : List (List Waiting) → List Bytes
  | [] => []
  | group :: groups => groupRecord n (groupOps group) :: groupRecords (n + (groupOps group).length) groups

theorem groupRecords_append (n : ℕ) (groups groups' : List (List Waiting)) :
    groupRecords n (groups ++ groups') =
      groupRecords n groups ++ groupRecords (n + (allOps groups).length) groups' := by
  induction groups generalizing n with
  | nil => rfl
  | cons group groups ih =>
    have hlen : n + (allOps (group :: groups)).length = n + (groupOps group).length + (allOps groups).length := by
      rw [allOps, List.flatten_cons, groupOps_append, List.length_append, Nat.add_assoc]
      rfl
    rw [List.cons_append, groupRecords, ih, hlen]
    rfl

/-- A log with the groups. -/
def logOf (n : ℕ) (groups : List (List Waiting)) : Writer := Writer.new.addRecords (groupRecords n groups)

theorem logOf_append_singleton (n : ℕ) (groups : List (List Waiting)) (group : List Waiting) :
    logOf n (groups ++ [group]) =
      (logOf n groups).AddRecord (groupRecord (n + (allOps groups).length) (groupOps group)) := by
  rw [logOf, groupRecords_append, Writer.addRecords, List.foldl_append]
  rfl

theorem Writer.aligned_addRecords {w : Writer} (h : w.Aligned) (l : List Bytes) : (w.addRecords l).Aligned := by
  induction l generalizing w with
  | nil => exact h
  | cons slice l ih => exact ih (h.addRecord slice).1

theorem logOf_prefix_append (n : ℕ) (groups groups' : List (List Waiting)) :
    (logOf n groups).dest_ <+: (logOf n (groups ++ groups')).dest_ := by
  have hpre := (Writer.aligned_addRecords Writer.aligned_new (groupRecords n groups)).prefix_addRecords
    (groupRecords (n + (allOps groups).length) groups')
  rwa [Writer.addRecords, Writer.addRecords, ← List.foldl_append, ← groupRecords_append] at hpre

/-! ## Invariant -/

/-- The log holds the groups, and the `last` one that is being written; groups with a writer that asked for a sync
have been synced. -/
structure LogFile.Holds (f : LogFile) (n : ℕ) (groups last : List (List Waiting)) : Prop where
  log : f.log = logOf n (groups ++ last)
  count : ∀ group ∈ groups ++ last, (groupOps group).length < 2 ^ 31
  synced : ∀ part group, part ++ [group] <+: groups → (∃ w ∈ group, w.sync = true) →
    (logOf n (part ++ [group])).dest_.length ≤ f.synced

/-- A group is being written, of which some updates have been inserted. -/
structure Writing.Holds (w : Writing) (queue : List Waiting) (last_sequence : UInt64) (f : LogFile)
    (inserted : List BatchOp) : Prop where
  group : w.group <+: queue
  updates : w.updates.Encodes (last_sequence + 1) (groupOps w.group)
  pending : inserted ++ w.pending = groupOps w.group
  sequence : w.sequence = UInt64.ofNat (last_sequence.toNat + inserted.length + 1)
  count : (groupOps w.group).length < 2 ^ 31
  synced : w.toSync = false → (∃ r ∈ w.group, r.sync = true) → f.log.dest_.length ≤ f.synced

/-- The group that is being written. -/
def DBImpl.group (db : DBImpl) : List (List Waiting) := (db.writing.map Writing.group).toList

/-- The groups that the tables hold, those that were set aside, the current ones, and the updates that have been
inserted of the group that is being written. -/
structure DBImpl.Holds (db : DBImpl) (flushed setAside current : List (List Waiting)) (inserted : List BatchOp) :
    Prop where
  tables : Views db.tables (viewOf (allOps flushed))
  imm : db.imm_ = none ∧ setAside = [] ∨
    ∃ f, db.imm_ = some (memOf (allOps flushed).length (allOps setAside), f) ∧
      f.Holds (allOps flushed).length setAside []
  mem : db.mem_ = memOf (allOps (flushed ++ setAside)).length (allOps current ++ inserted)
  log : db.log_.Holds (allOps (flushed ++ setAside)).length current db.group
  writing : db.writing = none ∧ inserted = [] ∨
    ∃ w, db.writing = some w ∧ w.Holds db.writers_ db.last_sequence db.log_ inserted
  last : db.last_sequence.toNat = (allOps (flushed ++ setAside ++ current)).length
  manifest : (allOps flushed).length ≤ db.manifest_sequence.toNat ∧
    db.manifest_sequence.toNat ≤ db.last_sequence.toNat
  returned : db.returned = (flushed ++ setAside ++ current).flatten.map fun w => (w, .OK)
  served : ∀ w ∈ (flushed ++ setAside ++ current).flatten, w.Fits
  waiting : ∀ w ∈ db.writers_, w.Fits
  bound : db.last_sequence.toNat + (groupOps db.writers_).length < 2 ^ 56

theorem LogFile.holds_new (n : ℕ) : LogFile.Holds ⟨.new, 0⟩ n [] [] where
  log := rfl
  count := fun group hgroup => by cases hgroup
  synced := fun part group h => absurd (List.prefix_nil.mp h) (List.append_ne_nil_of_right_ne_nil _ (by simp))

theorem DBImpl.holds_new : DBImpl.new.Holds [] [] [] [] where
  tables := views_nil
  imm := .inl ⟨rfl, rfl⟩
  mem := rfl
  log := LogFile.holds_new 0
  writing := .inl ⟨rfl, rfl⟩
  last := rfl
  manifest := ⟨le_rfl, le_rfl⟩
  returned := rfl
  served := fun w hw => by cases hw
  waiting := fun w hw => by cases hw
  bound := by decide

/-- What a writer hands in: its sizes fit, and there are sequence numbers left for it. -/
def DBImpl.Ready (db : DBImpl) : DbEvent → Prop
  | .enqueue ops _ =>
    (∀ op ∈ ops, WriteBatch.SizesFit op) ∧ (WriteBatch.ofOps ops).ByteSize < 2 ^ 31 ∧
      db.last_sequence.toNat + (groupOps db.writers_).length + ops.length < 2 ^ 56
  | _ => True

section Steps

variable {db db' : DBImpl} {flushed setAside current : List (List Waiting)} {inserted : List BatchOp}

theorem DBImpl.Holds.enqueue (h : db.Holds flushed setAside current inserted) {ops : List BatchOp} {sync : Bool}
    (hready : db.Ready (.enqueue ops sync)) (hstep : db.step (.enqueue ops sync) = some db') :
    db'.Holds flushed setAside current inserted := by
  obtain ⟨hops, hsize, hbound⟩ := hready
  cases hstep
  refine { h with writing := ?_, waiting := fun w hw => ?_, bound := ?_ }
  · refine h.writing.imp id fun ⟨w, hw, hholds⟩ => ⟨w, hw, { hholds with group := ?_ }⟩
    exact hholds.group.trans (List.prefix_append _ _)
  · rcases List.mem_append.mp hw with hw | hw
    · exact h.waiting w hw
    · rw [List.mem_singleton.mp hw]
      exact Waiting.fits_ofOps hops hsize sync
  · have hone : groupOps [⟨.ofOps ops, sync⟩] = ops := by
      rw [groupOps, List.flatMap_singleton, Waiting.updates_ofOps hops]
    change db.last_sequence.toNat + (groupOps (db.writers_ ++ [⟨.ofOps ops, sync⟩])).length < 2 ^ 56
    rw [groupOps_append, List.length_append, hone, ← Nat.add_assoc]
    exact hbound

theorem setSequence_eq_groupRecord {b : WriteBatch} {seq : UInt64} {ops : List BatchOp} (h : b.Encodes seq ops)
    (last : UInt64) : (b.SetSequence (last + 1)).rep_ = groupRecord last.toNat ops := by
  have hseq : last + 1 = UInt64.ofNat (last.toNat + 1) := by
    rw [UInt64.ofNat_add, UInt64.ofNat_toNat]
    rfl
  rw [h.setSequence (last + 1), hseq]
  rfl

theorem DBImpl.Holds.writes (h : db.Holds flushed setAside current inserted) {w : Writing}
    (hw : db.writing = some w) : w.Holds db.writers_ db.last_sequence db.log_ inserted ∧ db.group = [w.group] := by
  refine ⟨?_, by rw [DBImpl.group, hw]; rfl⟩
  rcases h.writing with ⟨hnone, -⟩ | ⟨w', hw', hholds⟩
  · rw [hw] at hnone
    cases hnone
  · rw [hw] at hw'
    cases hw'
    exact hholds

theorem DBImpl.Holds.idle (h : db.Holds flushed setAside current inserted) (hw : db.writing = none) :
    inserted = [] ∧ db.group = [] := by
  refine ⟨?_, by rw [DBImpl.group, hw]; rfl⟩
  rcases h.writing with ⟨-, hnil⟩ | ⟨w, hw', -⟩
  · exact hnil
  · rw [hw] at hw'
    cases hw'

theorem DBImpl.logGroup_eq_some (h : db.logGroup = some db') :
    ∃ first rest, db.writing = none ∧ db.writers_ = first :: rest ∧
      db' = { db with
        log_ := { db.log_ with
          log := db.log_.log.AddRecord ((BuildBatchGroup first rest).1.SetSequence (db.last_sequence + 1)).rep_ }
        writing :=
          some ⟨(BuildBatchGroup first rest).1.SetSequence (db.last_sequence + 1), (BuildBatchGroup first rest).2,
          first.sync, ((BuildBatchGroup first rest).1.SetSequence (db.last_sequence + 1)).Sequence,
          ((BuildBatchGroup first rest).1.SetSequence (db.last_sequence + 1)).Iterate.1⟩ } := by
  rw [DBImpl.logGroup] at h
  cases hwriting : db.writing with
  | some w =>
    rw [hwriting] at h
    cases h
  | none =>
    cases hwriters : db.writers_ with
    | nil =>
      rw [hwriting, hwriters] at h
      cases h
    | cons first rest =>
      rw [hwriting, hwriters] at h
      exact ⟨first, rest, rfl, rfl, (Option.some.inj h).symm⟩

theorem DBImpl.Holds.logGroup (h : db.Holds flushed setAside current inserted) (hstep : db.logGroup = some db') :
    db'.Holds flushed setAside current inserted := by
  obtain ⟨first, rest, hnone, hqueue, rfl⟩ := DBImpl.logGroup_eq_some hstep
  obtain ⟨hinserted, hgroup⟩ := h.idle hnone
  obtain ⟨⟨more, hmore, hgroup'⟩, hbatch, hcount, hsync⟩ :=
    buildBatchGroup_spec fun w hw => h.waiting w (hqueue ▸ hw)
  have hpre : (BuildBatchGroup first rest).2 <+: first :: rest := hgroup' ▸ (List.prefix_cons_inj first).mpr hmore
  have hupdates := hbatch.setSequence (db.last_sequence + 1)
  have hfits : ∀ op ∈ groupOps (BuildBatchGroup first rest).2, WriteBatch.SizesFit op := by
    intro op hop
    obtain ⟨w, hw, hop⟩ := List.mem_flatMap.mp hop
    exact (h.waiting w (hqueue ▸ hpre.subset hw)).sizes op hop
  have hcounts := h.log.count
  rw [hgroup, List.append_nil] at hcounts
  refine { h with log := ⟨?_, fun group hg => ?_, h.log.synced⟩, writing := .inr ⟨_, rfl, ?_⟩ }
  · have hlast : (allOps (flushed ++ setAside)).length + (allOps current).length = db.last_sequence.toNat := by
      rw [h.last, allOps_append (flushed ++ setAside) current, List.length_append]
    change db.log_.log.AddRecord _ = logOf _ (current ++ [(BuildBatchGroup first rest).2])
    rw [logOf_append_singleton, h.log.log, hgroup, List.append_nil, setSequence_eq_groupRecord hbatch, hlast]
  · rcases List.mem_append.mp hg with hg | hg
    · exact hcounts group hg
    · rw [List.mem_singleton.mp hg]
      exact hcount
  · refine ⟨hqueue ▸ hpre, hupdates, ?_, ?_, hcount, fun hfirst hex => ?_⟩
    · rw [hinserted, List.nil_append, hupdates.iterate hfits]
    · rw [hupdates.sequence, hinserted, List.length_nil, Nat.add_zero, UInt64.ofNat_add, UInt64.ofNat_toNat]
      rfl
    · obtain ⟨r, hr, hs⟩ := hex
      exact absurd ((hsync r hr hs).symm.trans hfirst) (by decide)

theorem DBImpl.syncLog_eq_some (h : db.syncLog = some db') :
    ∃ w, db.writing = some w ∧
      db' = { db with
        log_ := { db.log_ with synced := db.log_.log.dest_.length }
        writing := some { w with toSync := false } } := by
  obtain ⟨w, hw, h⟩ := Option.bind_eq_some_iff.mp h
  split_ifs at h
  exact ⟨w, hw, (Option.some.inj h).symm⟩

theorem DBImpl.Holds.syncLog (h : db.Holds flushed setAside current inserted) (hstep : db.syncLog = some db') :
    db'.Holds flushed setAside current inserted := by
  obtain ⟨w, hw, rfl⟩ := DBImpl.syncLog_eq_some hstep
  obtain ⟨hholds, hgroup⟩ := h.writes hw
  have hcounts := h.log.count
  rw [hgroup] at hcounts
  refine { h with log := ⟨?_, hcounts, fun part group hpre _ => ?_⟩, writing := .inr ⟨_, rfl, ?_⟩ }
  · rw [h.log.log, hgroup]
    rfl
  · obtain ⟨more, hmore⟩ := hpre
    have hlen :=
      (logOf_prefix_append (allOps (flushed ++ setAside)).length (part ++ [group]) (more ++ db.group)).length_le
    rwa [← List.append_assoc, hmore, ← h.log.log] at hlen
  · exact { hholds with synced := fun _ _ => le_rfl }

theorem DBImpl.insertUpdate_eq_some (h : db.insertUpdate = some db') :
    ∃ w op ops, db.writing = some w ∧ w.pending = op :: ops ∧
      db' = { db with
        mem_ := db.mem_.addUpdate w.sequence op
        writing := some { w with sequence := w.sequence + 1, pending := ops } } := by
  obtain ⟨w, hw, h⟩ := Option.bind_eq_some_iff.mp h
  cases hsync : w.toSync with
  | true =>
    rw [hsync] at h
    cases h
  | false =>
    cases hpending : w.pending with
    | nil =>
      rw [hsync, hpending] at h
      cases h
    | cons op ops =>
      rw [hsync, hpending] at h
      exact ⟨w, op, ops, hw, hpending, hsync ▸ (Option.some.inj h).symm⟩

theorem DBImpl.Holds.insertUpdate (h : db.Holds flushed setAside current inserted)
    (hstep : db.insertUpdate = some db') : ∃ op, db'.Holds flushed setAside current (inserted ++ [op]) := by
  obtain ⟨w, op, ops, hw, hpending, rfl⟩ := DBImpl.insertUpdate_eq_some hstep
  obtain ⟨hholds, hgroup⟩ := h.writes hw
  have hlen : (allOps (flushed ++ setAside)).length + (allOps current ++ inserted).length + 1 =
      db.last_sequence.toNat + inserted.length + 1 := by
    rw [h.last, allOps_append (flushed ++ setAside) current, List.length_append, List.length_append, ← Nat.add_assoc]
  refine ⟨op, { h with mem := ?_, log := ?_, writing := .inr ⟨_, rfl, ?_⟩ }⟩
  · rw [← List.append_assoc, memOf_append, ← h.mem, hlen, ← hholds.sequence]
    rfl
  · have hlog := h.log
    rw [hgroup] at hlog
    exact hlog
  · refine { hholds with pending := ?_, sequence := ?_ }
    · rw [List.append_assoc, ← hholds.pending, hpending]
      rfl
    · have hnext : db.last_sequence.toNat + (inserted ++ [op]).length + 1 =
          db.last_sequence.toNat + inserted.length + 1 + 1 := by
        rw [List.length_append, List.length_singleton, ← Nat.add_assoc]
      rw [hnext, UInt64.ofNat_add, ← hholds.sequence]
      rfl

theorem DBImpl.finishGroup_eq_some (h : db.finishGroup = some db') :
    ∃ w, db.writing = some w ∧ w.toSync = false ∧ w.pending = [] ∧
      db' = { db with
        last_sequence := addCount db.last_sequence w.updates.Count
        writers_ := db.writers_.drop w.group.length
        writing := none
        returned := db.returned ++ w.group.map fun r => (r, w.updates.Iterate.2) } := by
  obtain ⟨w, hw, h⟩ := Option.bind_eq_some_iff.mp h
  cases hsync : w.toSync with
  | true =>
    rw [hsync] at h
    cases h
  | false =>
    cases hpending : w.pending with
    | cons op ops =>
      rw [hsync, hpending] at h
      cases h
    | nil =>
      rw [hsync, hpending] at h
      exact ⟨w, hw, hsync, hpending, (Option.some.inj h).symm⟩

theorem toNat_addCount {s : UInt64} {n : ℕ} (hn : n < 2 ^ 31) (hs : s.toNat + n < 2 ^ 64) :
    (addCount s (Int32.ofNat n)).toNat = s.toNat + n := by
  have hcount : (Int32.ofNat n).toInt64.toUInt64.toNat = n := by
    change ((BitVec.ofNat 32 n).signExtend 64).toNat = n
    have hmsb : (BitVec.ofNat 32 n).msb = false := by
      rw [BitVec.msb_eq_false_iff_two_mul_lt, BitVec.toNat_ofNat]
      omega
    rw [BitVec.signExtend_eq_setWidth_of_msb_false hmsb, BitVec.toNat_setWidth, BitVec.toNat_ofNat]
    omega
  rw [addCount, UInt64.toNat_add, hcount]
  exact Nat.mod_eq_of_lt (by omega)

theorem DBImpl.Holds.finishGroup (h : db.Holds flushed setAside current inserted)
    (hstep : db.finishGroup = some db') : ∃ group, db'.Holds flushed setAside (current ++ [group]) [] := by
  obtain ⟨w, hw, hsync, hpending, rfl⟩ := DBImpl.finishGroup_eq_some hstep
  obtain ⟨hholds, hgroup⟩ := h.writes hw
  obtain ⟨rest, hqueue⟩ := hholds.group
  have hinserted : inserted = groupOps w.group := by
    have hsplit := hholds.pending
    rwa [hpending, List.append_nil] at hsplit
  have hfits : ∀ r ∈ w.group, r.Fits := fun r hr => h.waiting r (hholds.group.subset hr)
  have hsizes : ∀ op ∈ groupOps w.group, WriteBatch.SizesFit op := by
    intro op hop
    obtain ⟨r, hr, hop⟩ := List.mem_flatMap.mp hop
    exact (hfits r hr).sizes op hop
  have hdrop : db.writers_.drop w.group.length = rest := by rw [← hqueue, List.drop_left]
  have hbound : db.last_sequence.toNat + (groupOps w.group).length + (groupOps rest).length < 2 ^ 56 := by
    have hall := h.bound
    rwa [← hqueue, groupOps_append, List.length_append, ← Nat.add_assoc] at hall
  have hlast : (addCount db.last_sequence w.updates.Count).toNat =
      db.last_sequence.toNat + (groupOps w.group).length := by
    rw [hholds.updates.count]
    exact toNat_addCount hholds.count (by omega)
  have hassoc : flushed ++ setAside ++ (current ++ [w.group]) = flushed ++ setAside ++ current ++ [w.group] :=
    (List.append_assoc _ _ _).symm
  have hall : allOps (flushed ++ setAside ++ (current ++ [w.group])) =
      allOps (flushed ++ setAside ++ current) ++ groupOps w.group := by
    rw [hassoc, allOps_append, allOps_singleton]
  have hcounts := h.log.count
  rw [hgroup, ← List.append_nil (current ++ [w.group])] at hcounts
  refine ⟨w.group, ⟨h.tables, h.imm, ?_, ⟨?_, hcounts, ?_⟩, .inl ⟨rfl, rfl⟩, ?_, ?_, ?_, ?_, ?_, ?_⟩⟩
  · rw [List.append_nil, allOps_append current, allOps_singleton, ← hinserted]
    exact h.mem
  · rw [h.log.log, hgroup]
    exact congrArg _ (List.append_nil _).symm
  · intro part group hpre hex
    rcases List.prefix_concat_iff.mp hpre with heq | hpre
    · obtain ⟨rfl, hone⟩ := List.append_inj' heq rfl
      cases hone
      have hlog := h.log.log
      rw [hgroup] at hlog
      rw [← hlog]
      exact hholds.synced hsync hex
    · exact h.log.synced part group hpre hex
  · rw [hall, List.length_append, ← h.last]
    exact hlast
  · exact ⟨h.manifest.1, h.manifest.2.trans (hlast ▸ Nat.le_add_right _ _)⟩
  · rw [hassoc, List.flatten_append, List.map_append, ← h.returned, List.flatten_singleton,
      hholds.updates.iterate hsizes]
  · intro r hr
    rw [hassoc, List.flatten_append, List.flatten_singleton] at hr
    rcases List.mem_append.mp hr with hr | hr
    · exact h.served r hr
    · exact hfits r hr
  · intro r hr
    exact h.waiting r (List.mem_of_mem_drop hr)
  · change (addCount db.last_sequence w.updates.Count).toNat + _ < _
    rw [hlast, hdrop]
    exact hbound

theorem DBImpl.switchMemTable_eq_some (h : db.switchMemTable = some db') :
    db.writing = none ∧ db.imm_ = none ∧
      db' = { db with imm_ := some (db.mem_, db.log_), mem_ := .new, log_ := ⟨.new, 0⟩ } := by
  rw [DBImpl.switchMemTable] at h
  cases hwriting : db.writing with
  | some w =>
    rw [hwriting] at h
    cases h
  | none =>
    cases himm : db.imm_ with
    | some imm =>
      rw [hwriting, himm] at h
      cases h
    | none =>
      rw [hwriting, himm] at h
      exact ⟨rfl, rfl, (Option.some.inj h).symm⟩

theorem DBImpl.Holds.switchMemTable (h : db.Holds flushed setAside current inserted)
    (hstep : db.switchMemTable = some db') : db'.Holds flushed current [] [] := by
  obtain ⟨hnone, himm, rfl⟩ := DBImpl.switchMemTable_eq_some hstep
  obtain ⟨rfl, hgroup⟩ := h.idle hnone
  have hsetAside : setAside = [] := by
    rcases h.imm with ⟨-, hnil⟩ | ⟨f, hf, -⟩
    · exact hnil
    · rw [himm] at hf
      cases hf
  subst hsetAside
  have hmem := h.mem
  have hlog := h.log
  have hgroup' : ({ db with imm_ := some (db.mem_, db.log_), mem_ := .new, log_ := ⟨.new, 0⟩ } : DBImpl).group =
      [] :=
    hgroup
  rw [List.append_nil] at hmem hlog
  rw [hgroup] at hlog
  refine { h with imm := .inr ⟨db.log_, ?_, hlog⟩, mem := rfl, log := ?_, writing := .inl ⟨hnone, rfl⟩,
                  last := ?_, returned := ?_, served := ?_ }
  · rw [← List.append_nil (allOps current), ← hmem]
  · rw [hgroup']
    exact LogFile.holds_new _
  · rw [List.append_nil, ← List.append_nil flushed]
    exact h.last
  · rw [List.append_nil, ← List.append_nil flushed]
    exact h.returned
  · rw [List.append_nil, ← List.append_nil flushed]
    exact h.served

theorem DBImpl.Holds.compactMemTable (h : db.Holds flushed setAside current inserted)
    (hstep : db.CompactMemTable = some db') : db'.Holds (flushed ++ setAside) [] current inserted := by
  obtain ⟨imm, himm, rfl⟩ := Option.map_eq_some_iff.mp hstep
  rcases h.imm with ⟨hnone, -⟩ | ⟨f, hf, hholds⟩
  · rw [himm] at hnone
    cases hnone
  · rw [himm] at hf
    cases hf
    have hlen : (allOps (flushed ++ setAside)).length ≤ db.last_sequence.toNat := by
      rw [h.last, allOps_append (flushed ++ setAside) current, List.length_append]
      exact Nat.le_add_right _ _
    have hsizes : ∀ op ∈ allOps setAside, WriteBatch.SizesFit op := by
      intro op hop
      obtain ⟨w, hw, hop⟩ := List.mem_flatMap.mp hop
      refine (h.served w ?_).sizes op hop
      rw [List.flatten_append, List.flatten_append]
      exact List.mem_append_left _ (List.mem_append_right _ hw)
    refine { h with tables := ?_, imm := .inl ⟨rfl, rfl⟩, mem := ?_, log := ?_, last := ?_,
                    manifest := ⟨hlen, le_rfl⟩, returned := ?_, served := ?_ }
    · have hlt : (allOps flushed).length + (allOps setAside).length < 2 ^ 56 := by
        have hbound := h.bound
        rw [allOps_append, List.length_append] at hlen
        omega
      have hviews := h.tables.cons hlt hsizes
      rwa [← viewOf_append, ← allOps_append] at hviews
    · rw [List.append_nil]
      exact h.mem
    · rw [List.append_nil]
      exact h.log
    · rw [List.append_nil]
      exact h.last
    · rw [List.append_nil]
      exact h.returned
    · rw [List.append_nil]
      exact h.served

/-- **Every event keeps what the parts hold**, some groups and updates. -/
theorem DBImpl.Holds.step (h : db.Holds flushed setAside current inserted) {e : DbEvent} (hready : db.Ready e)
    (hstep : db.step e = some db') :
    ∃ flushed' setAside' current' inserted', db'.Holds flushed' setAside' current' inserted' := by
  cases e with
  | enqueue ops sync => exact ⟨_, _, _, _, h.enqueue hready hstep⟩
  | logGroup => exact ⟨_, _, _, _, h.logGroup hstep⟩
  | syncLog => exact ⟨_, _, _, _, h.syncLog hstep⟩
  | insertUpdate =>
    obtain ⟨op, hholds⟩ := h.insertUpdate hstep
    exact ⟨_, _, _, _, hholds⟩
  | finishGroup =>
    obtain ⟨group, hholds⟩ := h.finishGroup hstep
    exact ⟨_, _, _, _, hholds⟩
  | switchMemTable => exact ⟨_, _, _, _, h.switchMemTable hstep⟩
  | compactMemTable => exact ⟨_, _, _, _, h.compactMemTable hstep⟩

/-- The updates of the writers that have come, and whether they asked for a sync. -/
def DBImpl.handed (db : DBImpl) : List (List BatchOp × Bool) :=
  (db.returned.map Prod.fst ++ db.writers_).map fun w => (w.updates, w.sync)

/-- What the writer of an event hands in. -/
def DbEvent.handed : DbEvent → List (List BatchOp × Bool)
  | .enqueue ops sync => [(ops, sync)]
  | _ => []

theorem DBImpl.Holds.handed (h : db.Holds flushed setAside current inserted) {e : DbEvent} (hready : db.Ready e)
    (hstep : db.step e = some db') : db'.handed = db.handed ++ e.handed := by
  cases e with
  | enqueue ops sync =>
    cases hstep
    have hnew : ([⟨.ofOps ops, sync⟩] : List Waiting).map (fun w => (w.updates, w.sync)) = [(ops, sync)] := by
      rw [List.map_singleton, Waiting.updates_ofOps hready.1]
    rw [DbEvent.handed, ← hnew, DBImpl.handed, DBImpl.handed, ← List.map_append, List.append_assoc]
  | finishGroup =>
    obtain ⟨w, hw, -, -, rfl⟩ := DBImpl.finishGroup_eq_some hstep
    obtain ⟨rest, hqueue⟩ := (h.writes hw).1.group
    have hgroup : (w.group.map fun r => (r, w.updates.Iterate.2)).map Prod.fst = w.group := by
      rw [List.map_map]
      exact List.map_id _
    have hsame : (db.returned ++ w.group.map fun r => (r, w.updates.Iterate.2)).map Prod.fst ++
        db.writers_.drop w.group.length = db.returned.map Prod.fst ++ db.writers_ := by
      rw [List.map_append, hgroup, ← hqueue, List.drop_left, List.append_assoc]
    exact (congrArg _ hsame).trans (List.append_nil _).symm
  | logGroup =>
    obtain ⟨first, rest, -, -, rfl⟩ := DBImpl.logGroup_eq_some hstep
    exact (List.append_nil _).symm
  | syncLog =>
    obtain ⟨w, -, rfl⟩ := DBImpl.syncLog_eq_some hstep
    exact (List.append_nil _).symm
  | insertUpdate =>
    obtain ⟨w, op, ops, -, -, rfl⟩ := DBImpl.insertUpdate_eq_some hstep
    exact (List.append_nil _).symm
  | switchMemTable =>
    obtain ⟨-, -, rfl⟩ := DBImpl.switchMemTable_eq_some hstep
    exact (List.append_nil _).symm
  | compactMemTable =>
    obtain ⟨imm, -, rfl⟩ := Option.map_eq_some_iff.mp hstep
    exact (List.append_nil _).symm

theorem DBImpl.Holds.sizes (h : db.Holds flushed setAside current inserted) :
    (∀ op ∈ allOps (flushed ++ setAside ++ current) ++ inserted, WriteBatch.SizesFit op) ∧
      (allOps (flushed ++ setAside ++ current) ++ inserted).length < 2 ^ 56 := by
  have hserved : ∀ op ∈ allOps (flushed ++ setAside ++ current), WriteBatch.SizesFit op := by
    intro op hop
    obtain ⟨w, hw, hop⟩ := List.mem_flatMap.mp hop
    exact (h.served w hw).sizes op hop
  have hbound := h.bound
  rw [h.last] at hbound
  rcases h.writing with ⟨-, rfl⟩ | ⟨w, -, hholds⟩
  · rw [List.append_nil]
    exact ⟨hserved, by omega⟩
  · obtain ⟨rest, hqueue⟩ := hholds.group
    rw [← hqueue, groupOps_append, ← hholds.pending, List.length_append, List.length_append] at hbound
    refine ⟨fun op hop => ?_, by rw [List.length_append]; omega⟩
    rcases List.mem_append.mp hop with hop | hop
    · exact hserved op hop
    · have hmem : op ∈ groupOps w.group := by
        rw [← hholds.pending]
        exact List.mem_append_left _ hop
      obtain ⟨r, hr, hop⟩ := List.mem_flatMap.mp hmem
      exact (h.waiting r (hholds.group.subset hr)).sizes op hop

theorem DBImpl.Holds.views (h : db.Holds flushed setAside current inserted) :
    Views (db.mem_ :: ((db.imm_.map Prod.fst).toList ++ db.tables))
      (viewOf (allOps (flushed ++ setAside ++ current) ++ inserted)) := by
  obtain ⟨hsizes, hlen⟩ := h.sizes
  have hsplit : allOps (flushed ++ setAside ++ current) ++ inserted =
      allOps (flushed ++ setAside) ++ (allOps current ++ inserted) := by
    rw [allOps_append, List.append_assoc]
  rw [hsplit] at hsizes hlen ⊢
  have hbelow : Views ((db.imm_.map Prod.fst).toList ++ db.tables) (viewOf (allOps (flushed ++ setAside))) := by
    rcases h.imm with ⟨himm, rfl⟩ | ⟨f, himm, -⟩
    · rw [himm, List.append_nil]
      exact h.tables
    · rw [himm, allOps_append, viewOf_append]
      rw [allOps_append] at hsizes hlen
      refine h.tables.cons ?_ fun op hop => hsizes op (List.mem_append_left _ (List.mem_append_right _ hop))
      rw [List.length_append, List.length_append] at hlen
      omega
  rw [h.mem, viewOf_append]
  rw [List.length_append] at hlen
  exact hbelow.cons hlen fun op hop => hsizes op (List.mem_append_right _ hop)

theorem DBImpl.Holds.getAt (h : db.Holds flushed setAside current inserted) {key : Bytes}
    (hkey : key.length + 8 < 2 ^ 32) {snap : UInt64} (hsnap : snap.toNat ≤ db.last_sequence.toNat) :
    db.GetAt key snap =
      (((allOps (flushed ++ setAside ++ current)).take snap.toNat).foldl BatchOp.apply ∅).find? key := by
  have hlt : snap.toNat < 2 ^ 56 := lt_of_le_of_lt hsnap (lt_of_le_of_lt (Nat.le_add_right _ _) h.bound)
  have hle : snap.toNat ≤ (allOps (flushed ++ setAside ++ current)).length := h.last ▸ hsnap
  rw [DBImpl.GetAt, h.views key snap hkey hlt, viewOf_apply, List.take_append_of_le_length hle]

theorem DBImpl.Holds.finished (h : db.Holds flushed setAside current inserted) {w : Writing}
    (hw : db.writing = some w) (hsync : w.toSync = false) :
    ∃ es db', run DBImpl.step db es = some db' ∧ (∀ e ∈ es, e.handed = []) ∧
      db'.returned = db.returned ++ w.group.map fun r => (r, .OK) := by
  generalize hops : w.pending = ops
  induction ops generalizing db w inserted with
  | nil =>
    have hstep : ∃ db', db.finishGroup = some db' ∧
        db'.returned = db.returned ++ w.group.map fun r => (r, w.updates.Iterate.2) := by
      rw [DBImpl.finishGroup, hw, Option.bind_some, hsync, hops]
      exact ⟨_, rfl, rfl⟩
    obtain ⟨db', hstep, hreturned⟩ := hstep
    have hstatus : w.updates.Iterate.2 = .OK := by
      have hupdates := (h.writes hw).1.updates
      refine congrArg Prod.snd (hupdates.iterate fun op hop => ?_)
      obtain ⟨r, hr, hop⟩ := List.mem_flatMap.mp hop
      exact (h.waiting r ((h.writes hw).1.group.subset hr)).sizes op hop
    refine ⟨[.finishGroup], db', ?_, fun e he => by rw [List.mem_singleton.mp he]; rfl, hstatus ▸ hreturned⟩
    rw [run_cons, DBImpl.step, hstep]
    rfl
  | cons op ops ih =>
    have hstep : ∃ db' w', db.insertUpdate = some db' ∧ db'.returned = db.returned ∧ db'.writing = some w' ∧
        w'.toSync = false ∧ w'.group = w.group ∧ w'.pending = ops := by
      rw [DBImpl.insertUpdate, hw, Option.bind_some, hsync, hops]
      exact ⟨_, _, rfl, rfl, rfl, rfl, rfl, rfl⟩
    obtain ⟨db₁, w₁, hstep, hreturned, hw₁, hsync₁, hgroup, hops₁⟩ := hstep
    obtain ⟨op', h₁⟩ := h.insertUpdate hstep
    obtain ⟨es, db', hrun, hes, hret⟩ := ih h₁ hw₁ hsync₁ hops₁
    refine ⟨.insertUpdate :: es, db', ?_, fun e he => ?_, by rw [hret, hreturned, hgroup]⟩
    · rw [run_cons, DBImpl.step, hstep]
      exact hrun
    · rcases List.mem_cons.mp he with rfl | he
      · rfl
      · exact hes e he

/-- **The writer at the front is answered**, by events of its own. -/
theorem DBImpl.Holds.answered (h : db.Holds flushed setAside current inserted) (hidle : db.writing = none)
    {first : Waiting} {rest : List Waiting} (hqueue : db.writers_ = first :: rest) :
    ∃ es db' more, run DBImpl.step db es = some db' ∧ (∀ e ∈ es, e.handed = []) ∧ more <+: rest ∧
      db'.returned = db.returned ++ (first :: more).map fun r => (r, .OK) := by
  obtain ⟨⟨more, hmore, hgroup⟩, -⟩ := buildBatchGroup_spec fun w hw => h.waiting w (hqueue ▸ hw)
  have hlog : ∃ db' w, db.logGroup = some db' ∧ db'.returned = db.returned ∧ db'.writing = some w ∧
      w.group = first :: more := by
    rw [DBImpl.logGroup, hidle, hqueue]
    exact ⟨_, _, rfl, rfl, rfl, hgroup⟩
  obtain ⟨db₁, w₁, hlog, hreturned₁, hw₁, hgroup₁⟩ := hlog
  have h₁ := h.logGroup hlog
  have hrest : ∃ es db', run DBImpl.step db₁ es = some db' ∧ (∀ e ∈ es, e.handed = []) ∧
      db'.returned = db₁.returned ++ w₁.group.map fun r => (r, .OK) := by
    cases hsync : w₁.toSync with
    | false => exact h₁.finished hw₁ hsync
    | true =>
      have hstep : ∃ db' w', db₁.syncLog = some db' ∧ db'.returned = db₁.returned ∧ db'.writing = some w' ∧
          w'.toSync = false ∧ w'.group = w₁.group := by
        rw [DBImpl.syncLog, hw₁, Option.bind_some, if_pos hsync]
        exact ⟨_, _, rfl, rfl, rfl, rfl, rfl⟩
      obtain ⟨db₂, w₂, hstep, hreturned₂, hw₂, hsync₂, hgroup₂⟩ := hstep
      obtain ⟨es, db', hrun, hes, hret⟩ := (h₁.syncLog hstep).finished hw₂ hsync₂
      refine ⟨.syncLog :: es, db', ?_, fun e he => ?_, by rw [hret, hreturned₂, hgroup₂]⟩
      · rw [run_cons, DBImpl.step, hstep]
        exact hrun
      · rcases List.mem_cons.mp he with rfl | he
        · rfl
        · exact hes e he
  obtain ⟨es, db', hrun, hes, hret⟩ := hrest
  refine ⟨.logGroup :: es, db', more, ?_, fun e he => ?_, hmore, by rw [hret, hreturned₁, hgroup₁]⟩
  · rw [run_cons, DBImpl.step, hlog]
    exact hrun
  · rcases List.mem_cons.mp he with rfl | he
    · rfl
    · exact hes e he

theorem allSteps_ready {es : List DbEvent} (hes : ∀ e ∈ es, e.handed = []) (db : DBImpl) :
    AllSteps DBImpl.step DBImpl.Ready db es := by
  induction es generalizing db with
  | nil => trivial
  | cons e es ih =>
    refine ⟨?_, fun db' _ => ih (fun e' he' => hes e' (List.mem_cons_of_mem _ he')) db'⟩
    cases e with
    | enqueue ops sync => cases hes _ List.mem_cons_self
    | _ => trivial

end Steps

/-- **A run of events** keeps what the parts hold, and serves the writers in their order. -/
theorem DBImpl.holds_run {es : List DbEvent} {db : DBImpl} (hready : AllSteps DBImpl.step DBImpl.Ready .new es)
    (hrun : run DBImpl.step .new es = some db) :
    (∃ flushed setAside current inserted, db.Holds flushed setAside current inserted) ∧
      db.handed = es.flatMap DbEvent.handed :=
  run_collects DBImpl.step (I := fun db => ∃ flushed setAside current inserted,
      DBImpl.Holds db flushed setAside current inserted) DBImpl.handed DbEvent.handed
    (fun _ _ _ ⟨_, _, _, _, h⟩ hready hstep => ⟨h.step hready hstep, h.handed hready hstep⟩)
    ⟨[], [], [], [], DBImpl.holds_new⟩ hready hrun

theorem DBImpl.exists_run_one {op : BatchOp} (hop : WriteBatch.SizesFit op)
    (hsize : (WriteBatch.ofOps [op]).ByteSize < 2 ^ 31) :
    ∃ es db, AllSteps DBImpl.step DBImpl.Ready .new (.enqueue [op] true :: es) ∧
      run DBImpl.step .new (.enqueue [op] true :: es) = some db ∧ db.returned = [(⟨.ofOps [op], true⟩, .OK)] ∧
      db.writers_ = [] := by
  have hready : DBImpl.new.Ready (.enqueue [op] true) :=
    ⟨fun op' h => List.mem_singleton.mp h ▸ hop, hsize, (by decide : 0 + 0 + 1 < 2 ^ 56)⟩
  obtain ⟨db₁, hstep, hidle, hqueue, hnone⟩ : ∃ db₁, DBImpl.new.step (.enqueue [op] true) = some db₁ ∧
      db₁.writing = none ∧ db₁.writers_ = [⟨.ofOps [op], true⟩] ∧ db₁.returned = [] :=
    ⟨_, rfl, rfl, rfl, rfl⟩
  obtain ⟨es, db, more, hrun, hes, hmore, hreturned⟩ := (DBImpl.holds_new.enqueue hready hstep).answered hidle hqueue
  obtain rfl := List.prefix_nil.mp hmore
  have hready' : AllSteps DBImpl.step DBImpl.Ready .new (.enqueue [op] true :: es) :=
    ⟨hready, fun db' _ => allSteps_ready hes db'⟩
  have hrun' : run DBImpl.step .new (.enqueue [op] true :: es) = some db := by
    rw [run_cons, hstep]
    exact hrun
  have hlen := congrArg List.length (DBImpl.holds_run hready' hrun').2
  rw [List.flatMap_cons, List.flatMap_eq_nil_iff.mpr hes, DBImpl.handed, hreturned, hnone, List.length_map,
    List.length_append] at hlen
  exact ⟨es, db, hready', hrun',
    by rw [hreturned, hnone]; rfl, List.eq_nil_of_length_eq_zero (Nat.add_left_cancel hlen)⟩

/-- **The queue is served in order**, and a snapshot reads, of the updates that were answered, those that it has:
also while a group is being written. -/
theorem get_serial {es : List DbEvent} {db : DBImpl} (hready : AllSteps DBImpl.step DBImpl.Ready .new es)
    (hrun : run DBImpl.step .new es = some db) :
    db.handed = es.flatMap DbEvent.handed ∧ (∀ r ∈ db.returned, r.2 = .OK) ∧
      db.last_sequence.toNat = (groupOps (db.returned.map Prod.fst)).length ∧
      ∀ (key : Bytes) (snap : UInt64), key.length + 8 < 2 ^ 32 → snap.toNat ≤ db.last_sequence.toNat →
        db.GetAt key snap =
          (((groupOps (db.returned.map Prod.fst)).take snap.toNat).foldl BatchOp.apply ∅).find? key := by
  obtain ⟨⟨flushed, setAside, current, inserted, h⟩, hhanded⟩ := DBImpl.holds_run hready hrun
  have hreturned : db.returned.map Prod.fst = (flushed ++ setAside ++ current).flatten := by
    rw [h.returned, List.map_map]
    exact List.map_id _
  refine ⟨hhanded, fun r hr => ?_, ?_, fun key snap hkey hsnap => ?_⟩
  · rw [h.returned] at hr
    obtain ⟨w, -, rfl⟩ := List.mem_map.mp hr
    rfl
  · rw [hreturned]
    exact h.last
  · rw [hreturned]
    exact h.getAt hkey hsnap

theorem get_serial_one :
    ∃ es db, run DBImpl.step .new (.enqueue [.put [1] [7]] true :: es) = some db ∧ db.returned.length = 1 ∧
      db.Get [1] = some [7] := by
  have hops : ∀ op ∈ [BatchOp.put [1] [7]], WriteBatch.SizesFit op := by decide
  obtain ⟨es, db, hready, hrun, hreturned, -⟩ := DBImpl.exists_run_one (hops _ List.mem_cons_self) (by decide)
  obtain ⟨-, -, hlast, hget⟩ := get_serial hready hrun
  have hgroup : groupOps (db.returned.map Prod.fst) = [.put [1] [7]] := by
    rw [hreturned, List.map_singleton, groupOps, List.flatMap_singleton, Waiting.updates_ofOps hops]
  refine ⟨es, db, hrun, by rw [hreturned]; rfl, ?_⟩
  rw [DBImpl.Get, hget [1] db.last_sequence (by decide) le_rfl, hlast, hgroup]
  decide

end Inery.Leveldb
