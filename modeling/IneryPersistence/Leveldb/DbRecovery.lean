import IneryPersistence.Leveldb.DbRuns

/-!
# Recovery

As in a run, a table is the memtable that it was written from, and a database is opened without errors of files,
with none of its tables compacted.

* `Recovering.addRecord`, `RecoverLogFile`, `Recover`: what is read back from tables and logs;
* `Writer.whole_eq_take`: the records that a log has which was cut off;
* `Recovering.Holds`, `readBack_recoverLogFile`: the groups that are read back from a log;
* **`recover_after_crash`**: every batch is recovered wholly or not at all, those that a writer asked to sync are
  recovered, and what is read is what the recovered batches make of an empty database.
-/

namespace Inery.Leveldb

open KV

/-! ## Model -/

/-- The variables of `RecoverLogFile`, with the tables that were written. -/
structure Recovering where
  mem : Option MemTable
  tables : List MemTable
  max_sequence : UInt64

/-- One pass of the loop of `RecoverLogFile`. The memtable is written to a table when it is `full`; errors of a batch
are ignored, as `paranoid_checks` is not set. -/
def Recovering.addRecord (full : MemTable → Bool) (r : Recovering) (record : Bytes) : Recovering :=
  if record.length < 12 then r
  else
    let batch := WriteBatch.SetContents record
    let mem := (batch.InsertInto (r.mem.getD .new)).1
    let last_seq := addCount batch.Sequence batch.Count - 1
    let max_sequence := if r.max_sequence < last_seq then last_seq else r.max_sequence
    if full mem then ⟨none, mem :: r.tables, max_sequence⟩ else ⟨some mem, r.tables, max_sequence⟩

/-- `RecoverLogFile`: the tables, as the memtables that `WriteLevel0Table` writes, and the largest sequence
number. -/
def RecoverLogFile (full : MemTable → Bool) (tables : List MemTable) (max_sequence : UInt64) (log : Bytes) :
    List MemTable × UInt64 :=
  let r := (Reader.new log true 0).records.1.foldl (Recovering.addRecord full) ⟨none, tables, max_sequence⟩
  (r.mem.toList ++ r.tables, r.max_sequence)

/-- `Recover`, from the tables and the sequence number of the descriptor and from the logs, the oldest first: the
tables, and the last sequence number. -/
def Recover (full : MemTable → Bool) (tables : List MemTable) (manifest_sequence : UInt64) (logs : List Bytes) :
    List MemTable × UInt64 :=
  let r := logs.foldl (fun r log => RecoverLogFile full r.1 r.2 log) (tables, 0)
  (r.1, if manifest_sequence < r.2 then r.2 else manifest_sequence)

/-- The recovery after a crash that leaves the first `m` bytes of the log of `imm_` and the first `n` bytes of the
current log. -/
def DBImpl.recoverAfter (full : MemTable → Bool) (db : DBImpl) (m n : ℕ) : List MemTable × UInt64 :=
  Recover full db.tables db.manifest_sequence
    ((db.imm_.map fun imm => imm.2.log.dest_.take m).toList ++ [db.log_.log.dest_.take n])

/-! ## Records of a log that was cut off -/

theorem Writer.whole_eq_take {w : Writer} (h : w.Aligned) (m : ℕ) (l : List Bytes) :
    ∃ k, w.whole m l = l.take k ∧ ∀ part, part <+: l → (w.addRecords part).dest_.length ≤ m → part.length ≤ k := by
  induction l generalizing w with
  | nil => exact ⟨0, rfl, fun part hpre _ => by rw [List.prefix_nil.mp hpre]; rfl⟩
  | cons slice l ih =>
    rw [Writer.whole]
    split_ifs with hle
    · obtain ⟨k, hk, hparts⟩ := ih (h.addRecord slice).1
      refine ⟨k + 1, by rw [hk, List.take_succ_cons], fun part hpre hlen => ?_⟩
      rcases part with _ | ⟨slice', part⟩
      · exact Nat.zero_le _
      · obtain ⟨rfl, hpre'⟩ := List.cons_prefix_cons.mp hpre
        exact Nat.succ_le_succ (hparts part hpre' hlen)
    · refine ⟨0, rfl, fun part hpre hlen => ?_⟩
      rcases part with _ | ⟨slice', part⟩
      · exact le_rfl
      · obtain ⟨rfl, -⟩ := List.cons_prefix_cons.mp hpre
        have hpre' := (h.addRecord slice').1.prefix_addRecords part
        exact absurd (hpre'.length_le.trans hlen) hle

theorem groupRecords_take (n k : ℕ) (groups : List (List Waiting)) :
    (groupRecords n groups).take k = groupRecords n (groups.take k) := by
  induction groups generalizing n k with
  | nil => rw [List.take_nil, groupRecords, List.take_nil]
  | cons group groups ih =>
    cases k with
    | zero => rfl
    | succ k => rw [groupRecords, List.take_succ_cons, ih, List.take_succ_cons, groupRecords]

theorem length_groupRecords (n : ℕ) (groups : List (List Waiting)) :
    (groupRecords n groups).length = groups.length := by
  induction groups generalizing n with
  | nil => rfl
  | cons group groups ih => rw [groupRecords, List.length_cons, ih, List.length_cons]

theorem records_logOf (n m : ℕ) (groups : List (List Waiting)) :
    ∃ k, (Reader.new ((logOf n groups).dest_.take m) true 0).records.1 = groupRecords n (groups.take k) ∧
      ∀ part, part <+: groups → (logOf n part).dest_.length ≤ m → part.length ≤ k := by
  have hrecords := (records_at (l := groupRecords n groups) Writer.aligned_new (Nat.zero_le m)
    (Reader.inBlock_new _ true)).1
  obtain ⟨k, hk, hparts⟩ := Writer.whole_eq_take Writer.aligned_new m (groupRecords n groups)
  refine ⟨k, hrecords.trans (hk.trans (groupRecords_take n k groups)), fun part hpre hlen => ?_⟩
  obtain ⟨more, rfl⟩ := hpre
  rw [groupRecords_append] at hparts
  rw [← length_groupRecords n part]
  exact hparts _ (List.prefix_append _ _) hlen

/-! ## Loop -/

/-- The updates that have been read back are in the tables and the memtable. -/
structure Recovering.Holds (r : Recovering) (n : ℕ) (view : ℕ → LevelDb) (start : UInt64) (ops : List BatchOp) :
    Prop where
  tables : ∃ old new, ops = old ++ new ∧ Views r.tables (extendView n old view) ∧
    (r.mem = none ∧ new = [] ∨ r.mem = some (memOf (n + old.length) new))
  atLeast : start.toNat ≤ r.max_sequence.toNat
  has : ops = [] ∨ n + ops.length ≤ r.max_sequence.toNat
  atMost : r.max_sequence.toNat ≤ max start.toNat (n + ops.length)

theorem Recovering.Holds.addRecord (full : MemTable → Bool) {r : Recovering} {n : ℕ} {view : ℕ → LevelDb}
    {start : UInt64} {ops : List BatchOp} (h : r.Holds n view start ops) {ops' : List BatchOp}
    (hsizes : ∀ op ∈ ops ++ ops', WriteBatch.SizesFit op) (hlen : n + (ops ++ ops').length < 2 ^ 56)
    (hcount : ops'.length < 2 ^ 31) :
    (r.addRecord full (groupRecord (n + ops.length) ops')).Holds n view start (ops ++ ops') := by
  have henc : (WriteBatch.SetContents (groupRecord (n + ops.length) ops')).Encodes
      (UInt64.ofNat (n + ops.length + 1))
      ops' := rfl
  have hlong : ¬ (groupRecord (n + ops.length) ops').length < 12 := by
    rw [groupRecord, List.length_append, length_encodeFixed64, List.length_append, length_encodeFixed32]
    omega
  rw [List.length_append] at hlen
  obtain ⟨old, new, hops, hviews, hmem⟩ := h.tables
  have hinsert : ((WriteBatch.SetContents (groupRecord (n + ops.length) ops')).InsertInto (r.mem.getD .new)).1 =
      memOf (n + old.length) (new ++ ops') := by
    have hmem' : r.mem.getD .new = memOf (n + old.length) new := by
      rcases hmem with ⟨hnone, rfl⟩ | hsome
      · rw [hnone]
        rfl
      · rw [hsome]
        rfl
    have hseq : n + old.length + new.length = n + ops.length := by
      rw [hops, List.length_append, Nat.add_assoc]
    rw [WriteBatch.InsertInto, henc.sequence, henc.iterate fun op hop =>
      hsizes op (List.mem_append_right _ hop), hmem', memOf_append, hseq]
  have hlast : (addCount (WriteBatch.SetContents (groupRecord (n + ops.length) ops')).Sequence
      (WriteBatch.SetContents (groupRecord (n + ops.length) ops')).Count - 1).toNat = n + (ops ++ ops').length := by
    have hseq := toNat_sequence (n := n + ops.length) (by omega)
    have hadd := toNat_addCount (s := UInt64.ofNat (n + ops.length + 1)) hcount (by rw [hseq]; omega)
    rw [henc.sequence, henc.count, UInt64.toNat_sub_of_le, hadd, hseq, List.length_append]
    · change n + ops.length + 1 + ops'.length - 1 = _
      omega
    · rw [UInt64.le_iff_toNat_le, hadd, hseq]
      change 1 ≤ _
      omega
  have hmax : ∀ last : UInt64, last.toNat = n + (ops ++ ops').length →
      (if r.max_sequence < last then last else r.max_sequence).toNat =
        max r.max_sequence.toNat (n + (ops ++ ops').length) := by
    intro last hlast
    split_ifs with hlt
    · rw [UInt64.lt_iff_toNat_lt] at hlt
      omega
    · rw [UInt64.lt_iff_toNat_lt] at hlt
      omega
  obtain ⟨max_sequence, hsequence, hrecord⟩ : ∃ max_sequence : UInt64,
      max_sequence.toNat = max r.max_sequence.toNat (n + (ops ++ ops').length) ∧
      r.addRecord full (groupRecord (n + ops.length) ops') =
        if full (memOf (n + old.length) (new ++ ops')) then
          ⟨none, memOf (n + old.length) (new ++ ops') :: r.tables, max_sequence⟩
        else ⟨some (memOf (n + old.length) (new ++ ops')), r.tables, max_sequence⟩ :=
    ⟨_, hmax _ hlast, by rw [Recovering.addRecord, if_neg hlong]; dsimp only; rw [hinsert]⟩
  have hgrow : ops.length ≤ (ops ++ ops').length := List.length_append ▸ Nat.le_add_right _ _
  have hle := h.atLeast
  have hmost := h.atMost
  have hsplit : ops ++ ops' = old ++ (new ++ ops') := by rw [hops, List.append_assoc]
  have hflushed : Views (memOf (n + old.length) (new ++ ops') :: r.tables) (extendView n (ops ++ ops') view) := by
    rw [hsplit, extendView_append]
    refine hviews.cons ?_ fun op hop => hsizes op (hsplit ▸ List.mem_append_right _ hop)
    rw [hops, List.length_append] at hlen
    rw [List.length_append]
    omega
  have hbounds : start.toNat ≤ max_sequence.toNat ∧ n + (ops ++ ops').length ≤ max_sequence.toNat ∧
      max_sequence.toNat ≤ max start.toNat (n + (ops ++ ops').length) := by omega
  rw [hrecord]
  by_cases hfull : full (memOf (n + old.length) (new ++ ops')) = true
  · rw [if_pos hfull]
    exact ⟨⟨ops ++ ops', [], (List.append_nil _).symm, hflushed, .inl ⟨rfl, rfl⟩⟩, hbounds.1, .inr hbounds.2.1,
      hbounds.2.2⟩
  · rw [if_neg hfull]
    exact ⟨⟨old, new ++ ops', hsplit, hviews, .inr rfl⟩, hbounds.1, .inr hbounds.2.1, hbounds.2.2⟩

theorem Recovering.holds_foldl (full : MemTable → Bool) {r : Recovering} {n : ℕ} {view : ℕ → LevelDb}
    {start : UInt64} {ops : List BatchOp} (h : r.Holds n view start ops) {groups : List (List Waiting)}
    (hsizes : ∀ op ∈ ops ++ allOps groups, WriteBatch.SizesFit op)
    (hlen : n + (ops ++ allOps groups).length < 2 ^ 56)
    (hcount : ∀ group ∈ groups, (groupOps group).length < 2 ^ 31) :
    ((groupRecords (n + ops.length) groups).foldl (Recovering.addRecord full) r).Holds n view start
      (ops ++ allOps groups) := by
  induction groups generalizing r ops with
  | nil => exact (List.append_nil ops).symm ▸ h
  | cons group groups ih =>
    have hall : ops ++ allOps (group :: groups) = ops ++ groupOps group ++ allOps groups := by
      rw [allOps, List.flatten_cons, groupOps_append, List.append_assoc]
      rfl
    rw [hall] at hsizes hlen ⊢
    have hlen' : n + (ops ++ groupOps group).length < 2 ^ 56 := by
      rw [List.length_append] at hlen
      omega
    have hstep := h.addRecord full (fun op hop => hsizes op (List.mem_append_left _ hop)) hlen'
      (hcount group List.mem_cons_self)
    have hnext : n + ops.length + (groupOps group).length = n + (ops ++ groupOps group).length := by
      rw [List.length_append, Nat.add_assoc]
    rw [groupRecords, List.foldl_cons, hnext]
    exact ih hstep hsizes hlen fun g hg => hcount g (List.mem_cons_of_mem _ hg)

/-! ## Logs -/

/-- The groups that are kept of a log of which the first `m` bytes are left, and what the tables then hold. -/
structure ReadBack (f : LogFile) (n : ℕ) (groups last : List (List Waiting)) (view : ℕ → LevelDb)
    (start : UInt64) (m : ℕ) (kept : List (List Waiting)) (r : List MemTable × UInt64) : Prop where
  part : kept <+: groups ++ last
  views : Views r.1 (extendView n (allOps kept) view)
  atLeast : start.toNat ≤ r.2.toNat
  has : allOps kept = [] ∨ n + (allOps kept).length ≤ r.2.toNat
  atMost : r.2.toNat ≤ max start.toNat (n + (allOps kept).length)
  synced : f.synced ≤ m → (groups.flatten.filter Waiting.sync).Sublist kept.flatten
  whole : f.log.dest_.length ≤ m → kept = groups ++ last

/-- The groups behind the first `k` of a log have no writer that asked for a sync, if all bytes that were synced
are read. -/
theorem LogFile.Holds.sync_sublist {f : LogFile} {n : ℕ} {groups last : List (List Waiting)}
    (h : f.Holds n groups last) {k m : ℕ} (hm : f.synced ≤ m)
    (hparts : ∀ part, part <+: groups ++ last → (logOf n part).dest_.length ≤ m → part.length ≤ k) :
    (groups.flatten.filter Waiting.sync).Sublist ((groups ++ last).take k).flatten := by
  have hnone : ((groups.drop k).flatten.filter Waiting.sync) = [] := by
    refine List.filter_eq_nil_iff.mpr fun w hw hsync => ?_
    obtain ⟨group, hgroup, hw⟩ := List.mem_flatten.mp hw
    obtain ⟨before, after, hsplit⟩ := List.append_of_mem hgroup
    have hpre : groups.take k ++ before ++ [group] <+: groups :=
      ⟨after, by rw [List.append_assoc, List.append_assoc, List.singleton_append, ← hsplit, List.take_append_drop]⟩
    have hlen := hparts _ (hpre.trans (List.prefix_append _ _)) ((h.synced _ _ hpre ⟨w, hw, hsync⟩).trans hm)
    have hk : k ≤ groups.length := by
      by_contra hlt
      rw [List.drop_of_length_le (by omega)] at hgroup
      cases hgroup
    rw [List.length_append, List.length_append, List.length_take, List.length_singleton] at hlen
    omega
  have hsplit : groups.flatten.filter Waiting.sync = (groups.take k).flatten.filter Waiting.sync := by
    conv_lhs => rw [← List.take_append_drop k groups]
    rw [List.flatten_append, List.filter_append, hnone, List.append_nil]
  rw [hsplit, List.take_append, List.flatten_append]
  exact (List.filter_sublist).trans (List.sublist_append_left _ _)

theorem readBack_recoverLogFile (full : MemTable → Bool) {tables : List MemTable} {view : ℕ → LevelDb}
    (hviews : Views tables view) (start : UInt64) {f : LogFile} {n : ℕ} {groups last : List (List Waiting)}
    (hf : f.Holds n groups last) (hsizes : ∀ op ∈ allOps (groups ++ last), WriteBatch.SizesFit op)
    (hlen : n + (allOps (groups ++ last)).length < 2 ^ 56) (m : ℕ) :
    ∃ kept, ReadBack f n groups last view start m kept (RecoverLogFile full tables start (f.log.dest_.take m)) := by
  obtain ⟨k, hrecords, hparts⟩ := records_logOf n m (groups ++ last)
  rw [← hf.log] at hrecords
  have hkept : allOps (groups ++ last) = allOps ((groups ++ last).take k) ++ allOps ((groups ++ last).drop k) := by
    rw [← allOps_append, List.take_append_drop]
  rw [hkept] at hsizes hlen
  have hnew : (⟨none, tables, start⟩ : Recovering).Holds n view start [] :=
    ⟨⟨[], [], rfl, (extendView_nil n view).symm ▸ hviews, .inl ⟨rfl, rfl⟩⟩, le_rfl, .inl rfl, le_max_left _ _⟩
  have hsizes' : ∀ op ∈ [] ++ allOps ((groups ++ last).take k), WriteBatch.SizesFit op := fun op hop =>
    hsizes op (List.mem_append_left _ hop)
  have hlen' : n + ([] ++ allOps ((groups ++ last).take k)).length < 2 ^ 56 := by
    rw [List.length_append] at hlen
    rw [List.nil_append]
    omega
  have hloop := Recovering.holds_foldl full hnew hsizes' hlen' fun group hgroup =>
    hf.count group (List.mem_of_mem_take hgroup)
  rw [List.nil_append, List.length_nil, Nat.add_zero, ← hrecords] at hloop
  obtain ⟨⟨old, new, hops, hviews', hmem⟩, hstart, hhas, hmost⟩ := hloop
  refine ⟨(groups ++ last).take k,
    ⟨List.take_prefix _ _, ?_, hstart, hhas, hmost, fun hm => hf.sync_sublist hm hparts, fun hm => ?_⟩⟩
  · rw [RecoverLogFile, hops, extendView_append]
    rcases hmem with ⟨hnone, rfl⟩ | hsome
    · dsimp only
      rw [hnone, extendView_nil]
      exact hviews'
    · dsimp only
      rw [hsome]
      refine hviews'.cons ?_ fun op hop => hsizes op (List.mem_append_left _ (hops ▸ List.mem_append_right _ hop))
      rw [hops, List.length_append, List.length_append] at hlen
      omega
  · have hle := hparts _ (List.prefix_refl _) (hf.log ▸ hm)
    exact List.take_of_length_le hle

/-! ## Crash -/

theorem extendView_of_has {n : ℕ} {ops : List BatchOp} {snap : ℕ} (h : ops = [] ∨ n + ops.length ≤ snap)
    (view : ℕ → LevelDb) : extendView n ops view snap = ops.foldl BatchOp.apply (view snap) := by
  rcases h with rfl | hle
  · rw [extendView_nil]
    rfl
  · exact extendView_of_le hle view

theorem length_allOps_le {groups groups' : List (List Waiting)} (h : groups <+: groups') :
    (allOps groups).length ≤ (allOps groups').length := by
  obtain ⟨more, rfl⟩ := h
  rw [allOps_append, List.length_append]
  exact Nat.le_add_right _ _

section Crash

variable {db : DBImpl} {flushed setAside current : List (List Waiting)} {inserted : List BatchOp}

theorem DBImpl.Holds.readBack_imm (h : db.Holds flushed setAside current inserted) (full : MemTable → Bool)
    (m n : ℕ) : ∃ f kept r, (∀ i, (∀ imm, db.imm_ = some imm → imm.2.synced ≤ i) → f.synced ≤ i) ∧
      (∀ i, (∀ imm, db.imm_ = some imm → imm.2.log.dest_.length ≤ i) → f.log.dest_.length ≤ i) ∧
      ReadBack f (allOps flushed).length setAside [] (viewOf (allOps flushed)) 0 m kept r ∧
      db.recoverAfter full m n =
        ((RecoverLogFile full r.1 r.2 (db.log_.log.dest_.take n)).1,
          if db.manifest_sequence < (RecoverLogFile full r.1 r.2 (db.log_.log.dest_.take n)).2 then
            (RecoverLogFile full r.1 r.2 (db.log_.log.dest_.take n)).2
          else db.manifest_sequence) := by
  rcases h.imm with ⟨himm, rfl⟩ | ⟨f, himm, hf⟩
  · refine ⟨⟨.new, 0⟩, [], (db.tables, 0), fun _ _ => Nat.zero_le _, fun _ _ => Nat.zero_le _, ?_, ?_⟩
    · exact ⟨List.prefix_refl _, (extendView_nil _ _).symm ▸ h.tables, le_rfl, .inl rfl, le_max_left _ _,
        fun _ => List.Sublist.refl _, fun _ => rfl⟩
    · rw [DBImpl.recoverAfter, himm]
      rfl
  · have hsizes := h.sizes
    rw [allOps_append, allOps_append, List.length_append, List.length_append, List.length_append] at hsizes
    obtain ⟨kept, hread⟩ := readBack_recoverLogFile full h.tables 0 hf
      (fun op hop => hsizes.1 op (List.mem_append_left _ (List.mem_append_left _ (List.mem_append_right _
        (List.append_nil setAside ▸ hop)))))
      (by rw [List.append_nil]; omega) m
    refine ⟨f, kept, _, fun i hi => hi _ himm, fun i hi => hi _ himm, hread, ?_⟩
    rw [DBImpl.recoverAfter, himm]
    rfl

theorem DBImpl.Holds.sizes_group (h : db.Holds flushed setAside current inserted) :
    (∀ op ∈ allOps (current ++ db.group), WriteBatch.SizesFit op) ∧
      (allOps (flushed ++ setAside)).length + (allOps (current ++ db.group)).length < 2 ^ 56 ∧
      db.group.flatten <+: db.writers_ := by
  have hgroup : db.group.flatten <+: db.writers_ := by
    rcases h.writing with ⟨hnone, -⟩ | ⟨w, hw, hholds⟩
    · rw [(h.idle hnone).2]
      exact List.nil_prefix
    · rw [(h.writes hw).2, List.flatten_singleton]
      exact hholds.group
  obtain ⟨rest, hrest⟩ := hgroup
  refine ⟨fun op hop => ?_, ?_, rest, hrest⟩
  · rw [allOps_append] at hop
    rcases List.mem_append.mp hop with hop | hop
    · refine h.sizes.1 op (List.mem_append_left _ ?_)
      rw [allOps_append]
      exact List.mem_append_right _ hop
    · obtain ⟨r, hr, hop⟩ := List.mem_flatMap.mp hop
      exact (h.waiting r (hrest ▸ List.mem_append_left _ hr)).sizes op hop
  · have hbound := h.bound
    rw [← hrest, groupOps_append, List.length_append, h.last, allOps_append, List.length_append] at hbound
    rw [allOps_append current, List.length_append]
    change _ + (_ + (groupOps db.group.flatten).length) < _
    omega

/-- **What is recovered** after a crash. -/
theorem DBImpl.Holds.recovered (h : db.Holds flushed setAside current inserted) (full : MemTable → Bool) {m n : ℕ}
    (hm : ∀ imm, db.imm_ = some imm → imm.2.synced ≤ m) (hn : db.log_.synced ≤ n) :
    ∃ kept₁ kept₂, kept₁ <+: setAside ∧ kept₂ <+: current ++ db.group ∧
      (setAside.flatten.filter Waiting.sync).Sublist kept₁.flatten ∧
      (current.flatten.filter Waiting.sync).Sublist kept₂.flatten ∧
      ((∀ imm, db.imm_ = some imm → imm.2.log.dest_.length ≤ m) → kept₁ = setAside) ∧
      (db.log_.log.dest_.length ≤ n → kept₂ = current ++ db.group) ∧
      ∀ key : Bytes, key.length + 8 < 2 ^ 32 →
        readTables key (db.recoverAfter full m n).2 (db.recoverAfter full m n).1 =
          ((allOps (flushed ++ kept₁ ++ kept₂)).foldl BatchOp.apply ∅).find? key := by
  obtain ⟨f, kept₁, r₁, hsynced, hwhole, hread₁, hrecover⟩ := h.readBack_imm full m n
  obtain ⟨hsizes, hlen, -⟩ := h.sizes_group
  obtain ⟨kept₂, hread₂⟩ := readBack_recoverLogFile full hread₁.views r₁.2 h.log hsizes hlen n
  refine ⟨kept₁, kept₂, (List.append_nil setAside) ▸ hread₁.part, hread₂.part, hread₁.synced (hsynced m hm),
    hread₂.synced hn, fun hall => (hread₁.whole (hwhole m hall)).trans (List.append_nil _), hread₂.whole,
      fun key hkey => ?_⟩
  -- the last sequence number has all updates that were kept
  obtain ⟨hflushed, hmanifest⟩ := h.manifest
  have hlen₁ := length_allOps_le ((List.append_nil setAside) ▸ hread₁.part)
  have hlen₂ := length_allOps_le hread₂.part
  have hmost₁ := hread₁.atMost
  have hmost₂ := hread₂.atMost
  have hge₂ := hread₂.atLeast
  have hbound := h.bound
  rw [allOps_append flushed, List.length_append] at hlen hmost₂
  have hzero : (0 : UInt64).toNat = 0 := rfl
  have hsnap : ∀ s : UInt64, s.toNat = max db.manifest_sequence.toNat
      (RecoverLogFile full r₁.1 r₁.2 (db.log_.log.dest_.take n)).2.toNat →
      readTables key s (RecoverLogFile full r₁.1 r₁.2 (db.log_.log.dest_.take n)).1 =
        ((allOps (flushed ++ kept₁ ++ kept₂)).foldl BatchOp.apply ∅).find? key := by
    intro s hs
    have hhas₁ : allOps kept₁ = [] ∨ (allOps flushed).length + (allOps kept₁).length ≤ s.toNat :=
      hread₁.has.imp id fun hle => by omega
    have hhas₂ : allOps kept₂ = [] ∨ (allOps (flushed ++ setAside)).length + (allOps kept₂).length ≤ s.toNat :=
      hread₂.has.imp id fun hle => by omega
    rw [hread₂.views key s hkey (by omega), extendView_of_has hhas₂, extendView_of_has hhas₁, viewOf_apply,
      List.take_of_length_le (by omega), ← List.foldl_append, ← List.foldl_append, ← allOps_append, ← allOps_append,
      List.append_assoc]
  rw [hrecover]
  refine hsnap _ ?_
  dsimp only
  split_ifs with hlt
  · rw [UInt64.lt_iff_toNat_lt] at hlt
    omega
  · rw [UInt64.lt_iff_toNat_lt] at hlt
    omega

end Crash

/-- **After a crash** that leaves what was synced, every batch is recovered wholly or not at all, and those of
writers that asked for a sync and were answered are recovered. If the old log is whole, the first batches of the
queue are recovered; if the current one is too, all that were answered. -/
theorem recover_after_crash (full : MemTable → Bool) {es : List DbEvent} {db : DBImpl}
    (hready : AllSteps DBImpl.step DBImpl.Ready .new es) (hrun : run DBImpl.step .new es = some db) {m n : ℕ}
    (hm : ∀ imm, db.imm_ = some imm → imm.2.synced ≤ m) (hn : db.log_.synced ≤ n) :
    ∃ kept : List Waiting, kept.Sublist (db.returned.map Prod.fst ++ db.writers_) ∧
      ((db.returned.map Prod.fst).filter Waiting.sync).Sublist kept ∧
      ((∀ imm, db.imm_ = some imm → imm.2.log.dest_.length ≤ m) →
        kept <+: db.returned.map Prod.fst ++ db.writers_ ∧
          (db.log_.log.dest_.length ≤ n → db.returned.map Prod.fst <+: kept)) ∧
      ∀ key : Bytes, key.length + 8 < 2 ^ 32 →
        readTables key (db.recoverAfter full m n).2 (db.recoverAfter full m n).1 =
          ((groupOps kept).foldl BatchOp.apply ∅).find? key := by
  obtain ⟨⟨flushed, setAside, current, inserted, h⟩, -⟩ := DBImpl.holds_run hready hrun
  obtain ⟨kept₁, kept₂, hpre₁, hpre₂, hsync₁, hsync₂, hall₁, hall₂, hread⟩ := h.recovered full hm hn
  obtain ⟨-, -, rest, hrest⟩ := h.sizes_group
  have hreturned : db.returned.map Prod.fst = (flushed ++ setAside ++ current).flatten := by
    rw [h.returned, List.map_map]
    exact List.map_id _
  have hqueue : db.returned.map Prod.fst ++ db.writers_ =
      flushed.flatten ++ (setAside.flatten ++ ((current ++ db.group).flatten ++ rest)) := by
    rw [hreturned, ← hrest]
    simp only [List.flatten_append, List.append_assoc]
  obtain ⟨more₁, hmore₁⟩ := hpre₁
  obtain ⟨more₂, hmore₂⟩ := hpre₂
  refine ⟨(flushed ++ kept₁ ++ kept₂).flatten, ?_, ?_, fun hwhole => ⟨?_, fun hcurrent => ?_⟩, hread⟩
  · rw [hqueue, ← hmore₁, ← hmore₂]
    simp only [List.flatten_append, List.append_assoc]
    refine (List.Sublist.refl _).append ((List.Sublist.refl _).append ?_)
    exact (List.sublist_append_left _ _).trans (List.sublist_append_right _ _)
  · rw [hreturned]
    simp only [List.flatten_append, List.filter_append, List.append_assoc]
    exact List.filter_sublist.append (hsync₁.append hsync₂)
  · rw [hqueue, hall₁ hwhole, ← hmore₂]
    simp only [List.flatten_append, List.append_assoc]
    exact (List.prefix_append_right_inj _).mpr ((List.prefix_append_right_inj _).mpr (List.prefix_append _ _))
  · rw [hreturned, hall₁ hwhole, hall₂ hcurrent, ← List.append_assoc]
    rw [@List.flatten_append _ (flushed ++ setAside ++ current)]
    exact List.prefix_append _ _

/-- A write that was synced, after a crash that leaves only what was synced. -/
theorem recover_after_crash_one :
    ∃ es db m, run DBImpl.step .new (.enqueue [.put [1] [7]] true :: es) = some db ∧
      readTables [1] (db.recoverAfter (fun _ => false) m db.log_.synced).2
        (db.recoverAfter (fun _ => false) m db.log_.synced).1 = some [7] := by
  have hops : ∀ op ∈ [BatchOp.put [1] [7]], WriteBatch.SizesFit op := by decide
  obtain ⟨es, db, hready, hrun, hreturned, hwriters⟩ := DBImpl.exists_run_one (hops _ List.mem_cons_self) (by decide)
  have hsynced : ∀ imm, db.imm_ = some imm → imm.2.synced ≤ db.imm_.elim 0 fun imm => imm.2.synced := by
    intro imm himm
    rw [himm]
    exact le_rfl
  obtain ⟨kept, hsub, hsync, -, hread⟩ := recover_after_crash (fun _ => false) hready hrun hsynced le_rfl
  rw [hreturned, hwriters] at hsub
  rw [hreturned] at hsync
  have hkept : kept = [⟨.ofOps [.put [1] [7]], true⟩] := hsub.antisymm hsync
  refine ⟨es, db, db.imm_.elim 0 fun imm => imm.2.synced, hrun, ?_⟩
  rw [hread [1] (by decide), hkept, groupOps, List.flatMap_singleton, Waiting.updates_ofOps hops]
  decide

end Inery.Leveldb
