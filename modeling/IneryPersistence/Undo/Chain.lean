import IneryPersistence.Undo.Manager
import IneryPersistence.Disk.Files

/-!
# A chain of blocks, and its undo records on disk

A block is executed on a wrapper over the caches of the manager, its undo records are written to disk, and the
wrapper is flushed. To go back, the records of the last block are read and executed on another wrapper.

* `ChainNode`, `NodeOp`, `ChainNode.step`: blocks that are connected and disconnected, flushes of the manager and
  restarts;
* `SameFrame`: the databases and the number of caches stay as they are;
* `Chained`: the caches show what the blocks of a chain leave, and the disk has their undo records;
* `ChainNode.step_good`: one step of a node;
* **`ChainNode.follows_chain`**: after every run the caches show a function of the blocks that are connected.
-/

namespace Inery

open KV CCacheWrapper

/-- A block that was connected: its undo records, and the position `WriteToDisk` gave them. -/
structure ChainBlock (Key Val : PrefixType → Type) where
  blockHash : Uint256
  txs : List (Tx Key Val)
  blockUndo : IneryBlockUndo
  pos : IneryDiskBlockPos

/-- The caches of the manager and the files, the blocks that are connected, and those that were when the manager
was last flushed. -/
structure ChainNode (Key Val : PrefixType → Type) [∀ p, LinearOrder (Key p)] where
  manager : CCacheWrapper Key Val
  disk : Disk
  chain : List (ChainBlock Key Val)
  saved : List (ChainBlock Key Val)

/-- What a node does. -/
inductive NodeOp (Key Val : PrefixType → Type) (BlockTx : Type)
  | connect (blockHash : Uint256) (txs : List (Tx Key Val)) (pos : IneryDiskBlockPos)
  | disconnect
  | write (op : DiskOp BlockTx)
  | flush
  | restart

section Model

variable {Key Val : PrefixType → Type} [∀ p, LinearOrder (Key p)] [∀ p, Serial (Key p)]
  [∀ p, DbUtil (Key p)] [∀ p, Serial (Val p)] [∀ p, DbUtil (Val p)]
  [CompactSize] [Serial UInt32] [Serial Uint256]

omit [∀ p, LinearOrder (Key p)] [∀ p, Serial (Key p)] [∀ p, DbUtil (Key p)] [∀ p, Serial (Val p)]
  [∀ p, DbUtil (Val p)] in
/-- The undo records of a block and their checksum. -/
def ChainBlock.record (hash : Bytes → Uint256) (b : ChainBlock Key Val) : Bytes :=
  ser b.blockUndo ++ ser (b.blockUndo.checksum hash b.blockHash)

/-- The operations of a block. -/
def ChainBlock.ops (b : ChainBlock Key Val) : List (WrapperOp Key Val) := b.txs.flatMap Prod.snd

/-- The caches of the manager after a wrapper over them was flushed and destroyed. -/
def ChainNode.commit (n : ChainNode Key Val) (cw : CCacheWrapper Key Val) : CCacheWrapper Key Val :=
  cw.flush.base (n.manager.pDbOpLogMap, n.manager.dbOpLogMap)

variable [Serial Int32] [Serial UInt64] {BlockTx : Type} [Serial BlockTx]

/-- One step; `none` when an assertion stops the program, or when one of the functions reports a failure. -/
def ChainNode.step (messageStart : Bytes) (hash : Bytes → Uint256) (n : ChainNode Key Val) :
    NodeOp Key Val BlockTx → Option (ChainNode Key Val)
  | .connect blockHash txs pos =>
    (executeBlock n.manager.setBaseViewPtr txs).bind fun r =>
      let written := r.2.writeToDisk messageStart hash n.disk pos blockHash
      if written.1 then
        some ⟨n.commit r.1, written.2.2, n.chain ++ [⟨blockHash, txs, r.2, written.2.1⟩], n.saved⟩
      else none
  | .disconnect =>
    n.chain.getLast?.bind fun b =>
      (IneryBlockUndo.readFromDisk hash n.disk b.pos b.blockHash).bind fun blockUndo =>
        (execute n.manager.setBaseViewPtr blockUndo).bind fun r =>
          if r.1 then some ⟨n.commit r.2, n.disk, n.chain.dropLast, n.saved⟩ else none
  | .write op => some { n with disk := op.apply messageStart hash n.disk }
  | .flush => some { n with manager := n.manager.managerFlush, saved := n.chain }
  | .restart => some { n with manager := n.manager.restart, chain := n.saved }

/-- A write to disk spares the undo records that may still be read. -/
def ChainNode.Spares (messageStart : Bytes) (hash : Bytes → Uint256) (n : ChainNode Key Val)
    (op : DiskOp BlockTx) : Prop :=
  ∀ b ∈ n.chain ++ n.saved,
    op.ApartFrom messageStart hash .rev b.pos.nFile b.pos.nPos.toNat (b.record hash).length

/-- What a step asks for: operations on members of their kind, ids of transactions that are `uint256`s, a block to
disconnect, and positions in files of less than `2 ^ 32` bytes that are free. -/
def ChainNode.Ready (messageStart : Bytes) (hash : Bytes → Uint256) (n : ChainNode Key Val) :
    NodeOp Key Val BlockTx → Prop
  | .connect blockHash txs pos =>
    (∀ tx ∈ txs, tx.1.length = 32 ∧ ∀ op ∈ tx.2, op.Valid) ∧ pos.isNull = false ∧
      ∀ r, executeBlock n.manager.setBaseViewPtr txs = some r →
        pos.nPos.toNat + (indexHeader messageStart (ser r.2).length).length < 2 ^ 32 ∧
          n.Spares messageStart hash (.writeUndo r.2 pos blockHash : DiskOp BlockTx)
  | .disconnect => n.chain ≠ []
  | .write op => n.Spares messageStart hash op
  | .flush | .restart => True

end Model

/-! ## What stays as it is -/

namespace CCacheWrapper

variable {Key Val : PrefixType → Type} [∀ p, LinearOrder (Key p)] [∀ p, Serial (Key p)]
  [∀ p, DbUtil (Key p)] [∀ p, Serial (Val p)] [∀ p, DbUtil (Val p)] {w w' w'' : CCacheWrapper Key Val}
  {p : PrefixType}

/-- The databases are the same, and the caches as many. -/
structure SameFrame (w w' : CCacheWrapper Key Val) : Prop where
  db : w'.db = w.db
  composite : ∀ p, (w'.compositeStack p).length = (w.compositeStack p).length
  simple : ∀ p, (w'.simpleStack p).length = (w.simpleStack p).length

omit [∀ p, Serial (Key p)] [∀ p, DbUtil (Key p)] [∀ p, Serial (Val p)] [∀ p, DbUtil (Val p)] in
theorem SameFrame.refl (w : CCacheWrapper Key Val) : SameFrame w w := ⟨rfl, fun _ => rfl, fun _ => rfl⟩

omit [∀ p, Serial (Key p)] [∀ p, DbUtil (Key p)] [∀ p, Serial (Val p)] [∀ p, DbUtil (Val p)] in
theorem SameFrame.trans (h : SameFrame w w') (h' : SameFrame w' w'') : SameFrame w w'' :=
  ⟨h'.db.trans h.db, fun p => (h'.composite p).trans (h.composite p), fun p => (h'.simple p).trans (h.simple p)⟩

theorem step_sameFrame {op : WrapperOp Key Val} (h : w.step op = some w') : SameFrame w w' := by
  have hbelow := step_sameBelow h
  refine ⟨?_, fun p => (hbelow.composite p).1, fun p => (hbelow.simple p).1⟩
  cases op with
  | getData p key | hasData p key | setData p key value | eraseData p key =>
    obtain rfl := Option.some.inj h
    simp
  | getSingle p | hasSingle p | setSingle p value | eraseSingle p =>
    obtain ⟨r, -, rfl⟩ := Option.map_eq_some_iff.mp h
    simp

theorem run_sameFrame {ops : List (WrapperOp Key Val)} (h : run step w ops = some w') : SameFrame w w' :=
  run_preserves step (fun _ _ _ h₁ hstep => h₁.trans (step_sameFrame hstep)) (SameFrame.refl w) h

theorem executeTx_sameFrame {undo : IneryBlockUndo} {tx : Tx Key Val} {r : CCacheWrapper Key Val × IneryBlockUndo}
    (h : executeTx (w, undo) tx = some r) : SameFrame w r.1 := by
  obtain ⟨w₁, hrun, rfl⟩ := Option.map_eq_some_iff.mp h
  obtain ⟨hdb, hcomp, hsimple⟩ := run_sameFrame hrun
  exact ⟨hdb, hcomp, hsimple⟩

theorem executeBlock_sameFrame {txs : List (Tx Key Val)} {r : CCacheWrapper Key Val × IneryBlockUndo}
    (h : executeBlock w txs = some r) : SameFrame w r.1 := by
  have hstep : ∀ (r₁ : CCacheWrapper Key Val × IneryBlockUndo) (tx : Tx Key Val)
      (r₂ : CCacheWrapper Key Val × IneryBlockUndo), SameFrame w r₁.1 → executeTx r₁ tx = some r₂ →
        SameFrame w r₂.1 :=
    fun _ _ _ h₁ hstep => h₁.trans (executeTx_sameFrame hstep)
  have hstart : SameFrame w ((w, []) : CCacheWrapper Key Val × IneryBlockUndo).1 := SameFrame.refl w
  exact @run_preserves _ _ executeTx (fun r₁ => SameFrame w r₁.1) hstep _ _ _ hstart h

theorem executeBlock_txIds {txs : List (Tx Key Val)} {r : CCacheWrapper Key Val × IneryBlockUndo}
    (h : executeBlock w txs = some r) (htxs : ∀ tx ∈ txs, tx.1.length = 32) : r.2.TxIds := by
  have key : ∀ r₀ : CCacheWrapper Key Val × IneryBlockUndo, r₀.2.TxIds → run executeTx r₀ txs = some r →
      r.2.TxIds := by
    clear h
    induction txs with
    | nil =>
      rintro r₀ h₀ hrun
      obtain rfl : r₀ = r := by simpa using hrun
      exact h₀
    | cons tx txs ih =>
      rintro r₀ h₀ hrun
      obtain ⟨r₁, hstep, hrest⟩ := Option.bind_eq_some_iff.mp hrun
      obtain ⟨w₁, -, rfl⟩ := Option.map_eq_some_iff.mp hstep
      refine ih (fun tx' htx => htxs tx' (List.mem_cons_of_mem _ htx)) _ (fun u hu => ?_) hrest
      rcases List.mem_append.mp hu with hu | hu
      · exact h₀ u hu
      · rw [List.mem_singleton.mp hu]
        exact htxs tx List.mem_cons_self
  exact key (w, []) nofun h

omit [∀ p, DbUtil (Key p)] [∀ p, DbUtil (Val p)] in
theorem undoMember_sameFrame {logs : List CDbOpLog} (h : undoMember w p logs = some w') : SameFrame w w' := by
  unfold undoMember at h
  split_ifs at h with hp
  · obtain ⟨c, -, rfl⟩ := Option.map_eq_some_iff.mp h
    refine ⟨by simp, fun q => rfl, fun q => ?_⟩
    by_cases hq : q = p
    · subst hq
      rw [simpleStack_setSimple]
      rfl
    · rw [(agreeAt_setSimple hq _).simpleStack]
  · obtain ⟨c, -, rfl⟩ := Option.map_eq_some_iff.mp h
    refine ⟨by simp, fun q => ?_, fun q => rfl⟩
    by_cases hq : q = p
    · subst hq
      rw [compositeStack_setComposite]
      rfl
    · rw [(agreeAt_setComposite hq _).compositeStack]

omit [∀ p, DbUtil (Key p)] [∀ p, DbUtil (Val p)] in
theorem undoTx_sameFrame {l : List (Bytes × List CDbOpLog)} {r : Bool × CCacheWrapper Key Val}
    (h : undoTx w l = some r) : SameFrame w r.2 := by
  induction l generalizing w with
  | nil =>
    obtain rfl := Option.some.inj h
    exact SameFrame.refl w
  | cons e l ih =>
    simp only [undoTx] at h
    split_ifs at h with h₁ h₂
    · obtain rfl := Option.some.inj h
      exact SameFrame.refl w
    · obtain ⟨w₁, hundo, hrest⟩ := Option.bind_eq_some_iff.mp h
      exact (undoMember_sameFrame hundo).trans (ih hrest)
    · obtain rfl := Option.some.inj h
      exact SameFrame.refl w

omit [∀ p, DbUtil (Key p)] [∀ p, DbUtil (Val p)] in
theorem undoTxs_sameFrame {l : List IneryTxUndo} {r : Bool × CCacheWrapper Key Val}
    (h : undoTxs w l = some r) : SameFrame w r.2 := by
  induction l generalizing w with
  | nil =>
    obtain rfl := Option.some.inj h
    exact SameFrame.refl w
  | cons u l ih =>
    rw [undoTxs] at h
    rcases hu : undoTx w u.dbOpLogMap.entries with _ | ⟨_ | _, w₁⟩
    · rw [hu] at h
      cases h
    · rw [hu] at h
      obtain rfl := Option.some.inj h
      exact undoTx_sameFrame hu
    · rw [hu] at h
      have h₁ : SameFrame w w₁ := undoTx_sameFrame hu
      exact h₁.trans (ih h)

omit [∀ p, Serial (Key p)] [∀ p, DbUtil (Key p)] [∀ p, DbUtil (Val p)] in
theorem Stored.of_db [∀ p, DbUtil (Val p)] (h : w.Stored) (hdb : w'.db = w.db) : w'.Stored := fun p => by
  rw [dbAccess, hdb]
  exact h p

omit [∀ p, DbUtil (Key p)] in
theorem SameViews.refl (w : CCacheWrapper Key Val) : SameViews w w := fun _ _ => ⟨fun _ => rfl, fun _ => rfl⟩

omit [∀ p, DbUtil (Key p)] in
theorem SameViews.symm (h : SameViews w w') : SameViews w' w := fun p hp =>
  ⟨fun hs => ((h p hp).1 hs).symm, fun hs => ((h p hp).2 hs).symm⟩

theorem SameViews.same (h : SameViews w w') : (w'.levelViews 0).Same (w.levelViews 0) := by
  rw [levelViews_zero, levelViews_zero]
  exact fun p hp => ⟨fun hs key _ => congrFun ((h p hp).1 hs) key, (h p hp).2⟩

omit [∀ p, DbUtil (Key p)] in
theorem sameViews_setBaseViewPtr (w : CCacheWrapper Key Val) : SameViews w w.setBaseViewPtr := fun p _ =>
  ⟨fun _ => view_setBaseViewPtr w p, fun _ => singleView_setBaseViewPtr w p⟩

omit [∀ p, DbUtil (Key p)] in
/-- **A wrapper over caches on the databases** that is flushed and destroyed: the caches show what it did, the
databases stay. -/
theorem commit_spec [∀ p, LawfulSerial (Key p)] [∀ p, LawfulSerial (Val p)] (hw : w.OnDatabases)
    (h : SameFrame w.setBaseViewPtr w') (log : (PrefixType → Bool) × CDBOpLogMap) :
    SameViews w' (w'.flush.base log) ∧ (w'.flush.base log).OnDatabases ∧ (w'.flush.base log).db = w.db := by
  have hlen : ∀ p, (w'.compositeStack p).length = 2 ∧ (w'.simpleStack p).length = 2 := fun p => by
    rw [h.composite, h.simple]
    exact ⟨congrArg Nat.succ (hw.length p).1, congrArg Nat.succ (hw.length p).2⟩
  have hframe : FlushFrame w' w'.flush := flushFrame_foldl w' members
  have hflush : ∀ p ∈ members, FlushedAt p w' w'.flush := fun p hp => flushedAt_flush w' hp
  have hdb : w'.flush.db = w'.db := db_foldl fun p _ => by
    rw [(hlen p).1, (hlen p).2]
    exact ⟨le_rfl, le_rfl⟩
  generalize w'.flush = u at *
  have hcomp : ∀ p, ∃ c, u.compositeBase p = [c] := fun p =>
    List.length_eq_one_iff.mp (Nat.succ.inj ((hframe.composite p).1.trans (hlen p).1))
  have hsimple : ∀ p, ∃ c, u.simpleBase p = [c] := fun p =>
    List.length_eq_one_iff.mp (Nat.succ.inj ((hframe.simple p).1.trans (hlen p).2))
  have hcstack : ∀ p, (u.base log).compositeStack p = u.compositeBase p := fun p => by
    obtain ⟨c, hc⟩ := hcomp p
    simp [compositeStack, base, hc]
  have hsstack : ∀ p, (u.base log).simpleStack p = u.simpleBase p := fun p => by
    obtain ⟨c, hc⟩ := hsimple p
    simp [simpleStack, base, hc]
  refine ⟨fun p hp => ⟨fun hs => ?_, fun hs => ?_⟩, .of_length fun p => ?_, hdb.trans h.db⟩
  · rw [← ((hflush p hp).composite hs).2, CCacheWrapper.view, hcstack]
    rfl
  · rw [← ((hflush p hp).simple hs).2, CCacheWrapper.singleView, hsstack]
    rfl
  · obtain ⟨c, hc⟩ := hcomp p
    obtain ⟨c', hc'⟩ := hsimple p
    rw [hcstack, hsstack, hc, hc']
    exact ⟨rfl, rfl⟩

/-! ## What a block leaves -/

variable [∀ p, LawfulSerial (Val p)] [∀ p, LawfulDbUtil (Val p)]

omit [∀ p, Serial (Key p)] [∀ p, Serial (Val p)] [∀ p, LawfulSerial (Val p)] [∀ p, LawfulDbUtil (Val p)] in
theorem foldl_write_same {v v' : Views Key Val} (h : v.Same v') (ops : List (WrapperOp Key Val)) :
    (ops.foldl Views.write v).Same (ops.foldl Views.write v') := by
  induction ops generalizing v v' with
  | nil => exact h
  | cons op ops ih => exact ih (h.write op)

theorem run_same (hdb : w.Stored) {ops : List (WrapperOp Key Val)} (hops : ∀ op ∈ ops, op.Valid)
    (h : run step w ops = some w') : (w'.levelViews 0).Same (ops.foldl Views.write (w.levelViews 0)) := by
  induction ops generalizing w with
  | nil =>
    obtain rfl : w = w' := by simpa using h
    exact Views.Same.refl _
  | cons op ops ih =>
    rw [run_cons] at h
    obtain ⟨w₁, hstep, hrest⟩ := Option.bind_eq_some_iff.mp h
    obtain ⟨w₂, hstep₂, hshows⟩ := step_shows hdb (hops op List.mem_cons_self)
    obtain rfl := Option.some.inj (hstep.symm.trans hstep₂)
    have hone : (w₁.levelViews 0).Same ((w.levelViews 0).write op) := fun p hp =>
      ⟨fun hs key hkey => (hshows.composite p hp hs key hkey).trans (by rw [lastSome_cons]; rfl),
        fun hs => (hshows.simple p hp hs).trans (by rw [lastSome_cons]; rfl)⟩
    exact (ih (hdb.of_db hshows.db) (fun op' hop => hops op' (List.mem_cons_of_mem _ hop)) hrest).trans
      (foldl_write_same hone ops)

/-- **A block writes its operations**, one after the other. -/
theorem executeBlock_same (hdb : w.Stored) {txs : List (Tx Key Val)} (htxs : ∀ tx ∈ txs, ∀ op ∈ tx.2, op.Valid)
    {r : CCacheWrapper Key Val × IneryBlockUndo} (h : executeBlock w txs = some r) :
    (r.1.levelViews 0).Same ((txs.flatMap Prod.snd).foldl Views.write (w.levelViews 0)) := by
  have key : ∀ (w : CCacheWrapper Key Val) (undo : IneryBlockUndo), w.Stored → run executeTx (w, undo) txs = some r →
      (r.1.levelViews 0).Same ((txs.flatMap Prod.snd).foldl Views.write (w.levelViews 0)) := by
    clear h hdb
    induction txs with
    | nil =>
      intro w undo _ hrun
      obtain rfl : (w, undo) = r := by simpa using hrun
      exact Views.Same.refl _
    | cons tx txs ih =>
      intro w undo hdb hrun
      obtain ⟨r₁, htx, hrest⟩ := Option.bind_eq_some_iff.mp hrun
      have hframe := executeTx_sameFrame htx
      obtain ⟨w₁, hops, rfl⟩ := Option.map_eq_some_iff.mp htx
      have hone : (w₁.levelViews 0).Same (tx.2.foldl Views.write (w.levelViews 0)) :=
        run_same (w := w.setDbOpLogMap) hdb (htxs tx List.mem_cons_self) hops
      have hrest := ih (fun tx' htx => htxs tx' (List.mem_cons_of_mem _ htx)) _ _ (hdb.of_db hframe.db) hrest
      rw [List.flatMap_cons, List.foldl_append]
      exact hrest.trans (foldl_write_same hone _)
  exact key w [] hdb h

end CCacheWrapper

/-! ## The chain -/

section Chain

variable {Key Val : PrefixType → Type} [∀ p, LinearOrder (Key p)] [∀ p, Serial (Key p)]
  [∀ p, DbUtil (Key p)] [∀ p, Serial (Val p)] [∀ p, DbUtil (Val p)] [CompactSize] [Serial Uint256]

/-- The undo records of the block are on disk, and go from the views of `w` back to those of `w₀`; the block itself
goes from those of `w₀` to those of `w`. -/
structure Link (hash : Bytes → Uint256) (disk : Disk) (w₀ w : CCacheWrapper Key Val) (b : ChainBlock Key Val) :
    Prop where
  undoes : BlockUndoes w₀ b.blockUndo w
  txIds : b.blockUndo.TxIds
  isNull : b.pos.isNull = false
  holds : disk.Holds .rev b.pos.nFile b.pos.nPos.toNat (b.record hash)
  same : (w.levelViews 0).Same (b.ops.foldl Views.write (w₀.levelViews 0))

/-- The caches show what the blocks of a chain, the last one at the end, make of the views of `w₀`. -/
inductive Chained (hash : Bytes → Uint256) (disk : Disk) (w₀ : CCacheWrapper Key Val) :
    List (ChainBlock Key Val) → CCacheWrapper Key Val → Prop
  | nil {w : CCacheWrapper Key Val} : SameViews w₀ w → Chained hash disk w₀ [] w
  | snoc {chain : List (ChainBlock Key Val)} {w₁ w₂ w : CCacheWrapper Key Val} {b : ChainBlock Key Val} :
    Chained hash disk w₀ chain w₁ → Link hash disk w₁ w₂ b → SameViews w₂ w → Chained hash disk w₀ (chain ++ [b]) w

variable {hash : Bytes → Uint256} {disk disk' : Disk} {w₀ w w' : CCacheWrapper Key Val}
  {chain : List (ChainBlock Key Val)} {b : ChainBlock Key Val}

theorem Chained.congr (h : Chained hash disk w₀ chain w) (hw : SameViews w w') : Chained hash disk w₀ chain w' := by
  cases h with
  | nil h => exact .nil (h.trans hw)
  | snoc h hlink h₂ => exact .snoc h hlink (h₂.trans hw)

theorem Chained.of_disk (h : Chained hash disk w₀ chain w)
    (hdisk : ∀ b ∈ chain, disk.Holds .rev b.pos.nFile b.pos.nPos.toNat (b.record hash) →
      disk'.Holds .rev b.pos.nFile b.pos.nPos.toNat (b.record hash)) : Chained hash disk' w₀ chain w := by
  induction h with
  | nil h => exact .nil h
  | snoc h hlink h₂ ih =>
    refine .snoc (ih fun b hb => hdisk b (List.mem_append_left _ hb)) ⟨hlink.undoes, hlink.txIds, hlink.isNull, ?_,
      hlink.same⟩ h₂
    exact hdisk _ (List.mem_append_right _ (List.mem_singleton_self _)) hlink.holds

/-- **The views are a function of the chain.** -/
theorem Chained.same (h : Chained hash disk w₀ chain w) :
    (w.levelViews 0).Same ((chain.flatMap ChainBlock.ops).foldl Views.write (w₀.levelViews 0)) := by
  induction h with
  | nil h => exact h.same
  | snoc h hlink h₂ ih =>
    rw [List.flatMap_append, List.foldl_append, List.flatMap_singleton]
    exact h₂.same.trans (hlink.same.trans (foldl_write_same ih _))

theorem Chained.last (h : Chained hash disk w₀ (chain ++ [b]) w) :
    ∃ w₁ w₂, Chained hash disk w₀ chain w₁ ∧ Link hash disk w₁ w₂ b ∧ SameViews w₂ w := by
  generalize hc : chain ++ [b] = c at h
  cases h with
  | nil _ => exact absurd hc (by simp)
  | snoc h hlink hw =>
    obtain ⟨rfl, hb⟩ := List.append_inj' hc rfl
    obtain rfl := List.singleton_inj.mp hb
    exact ⟨_, _, h, hlink, hw⟩

/-- What holds between the steps of a node that began with the views of `w₀`: its caches show what its chain leaves,
and the databases alone what the chain of the last flush does. -/
structure ChainNode.Good (hash : Bytes → Uint256) (w₀ : CCacheWrapper Key Val) (n : ChainNode Key Val) : Prop where
  onDatabases : n.manager.OnDatabases
  stored : n.manager.Stored
  chained : Chained hash n.disk w₀ n.chain n.manager
  saved : Chained hash n.disk w₀ n.saved n.manager.restart

omit [∀ p, DbUtil (Key p)] [CompactSize] [Serial Uint256] in
theorem ChainNode.commit_spec [∀ p, LawfulSerial (Key p)] [∀ p, LawfulSerial (Val p)] {n : ChainNode Key Val}
    (hn : n.manager.OnDatabases) {cw : CCacheWrapper Key Val} (h : SameFrame n.manager.setBaseViewPtr cw) :
    SameViews cw (n.commit cw) ∧ (n.commit cw).OnDatabases ∧ (n.commit cw).db = n.manager.db :=
  CCacheWrapper.commit_spec hn h _

variable [Serial UInt32] [Serial Int32] [Serial UInt64] {BlockTx : Type} [Serial BlockTx] {messageStart : Bytes}
  {n : ChainNode Key Val}

omit [∀ p, Serial (Key p)] [∀ p, DbUtil (Key p)] [∀ p, Serial (Val p)] [∀ p, DbUtil (Val p)] in
theorem ChainNode.Spares.holds {op : DiskOp BlockTx} (h : n.Spares messageStart hash op)
    (hb : b ∈ n.chain ++ n.saved) (hdisk : n.disk.Holds .rev b.pos.nFile b.pos.nPos.toNat (b.record hash)) :
    (op.apply messageStart hash n.disk).Holds .rev b.pos.nFile b.pos.nPos.toNat (b.record hash) :=
  hdisk.apply (h b hb)

variable [LawfulCompactSize] [StreamSerial Uint256] [∀ p, LawfulSerial (Key p)] [∀ p, LawfulSerial (Val p)]
  [∀ p, LawfulDbUtil (Val p)]

omit [LawfulCompactSize] [StreamSerial Uint256] in
theorem ChainNode.Good.connect (h : n.Good hash w₀) {blockHash : Uint256} {txs : List (Tx Key Val)}
    {pos : IneryDiskBlockPos}
    (hop : n.Ready messageStart hash (.connect blockHash txs pos : NodeOp Key Val BlockTx)) :
    ∃ n', n.step messageStart hash (.connect blockHash txs pos : NodeOp Key Val BlockTx) = some n' ∧
      n'.Good hash w₀ := by
  obtain ⟨htxs, hpos, hready⟩ := hop
  have hops : ∀ tx ∈ txs, ∀ op ∈ tx.2, op.Valid := fun tx htx => (htxs tx htx).2
  have hchild : n.manager.setBaseViewPtr.Stored := h.stored
  obtain ⟨cw, undo, hexec, hundoes⟩ := executeBlock_undoes hchild hops
  obtain ⟨hlen, hspares⟩ := hready _ hexec
  obtain ⟨hviews, hon, hdb⟩ := ChainNode.commit_spec h.onDatabases (executeBlock_sameFrame hexec)
  have hwritten := IneryBlockUndo.writeToDisk_eq messageStart hash n.disk undo hpos blockHash
  have hstep : n.step messageStart hash (.connect blockHash txs pos : NodeOp Key Val BlockTx) =
      some ⟨n.commit cw, (undo.writeToDisk messageStart hash n.disk pos blockHash).2.2,
        n.chain ++ [⟨blockHash, txs, undo, (undo.writeToDisk messageStart hash n.disk pos blockHash).2.1⟩],
        n.saved⟩ := by
    rw [ChainNode.step, hexec, Option.bind_some]
    exact if_pos (by rw [hwritten])
  have hdisk : ∀ b ∈ n.chain ++ n.saved, n.disk.Holds .rev b.pos.nFile b.pos.nPos.toNat (b.record hash) →
      ((undo.writeToDisk messageStart hash n.disk pos blockHash).2.2).Holds .rev b.pos.nFile b.pos.nPos.toNat
        (b.record hash) := fun b hb => hspares.holds hb
  have hholds : ((undo.writeToDisk messageStart hash n.disk pos blockHash).2.2).Holds .rev pos.nFile
      (pos.nPos.toNat + (indexHeader messageStart (ser undo).length).length)
      (ser undo ++ ser (undo.checksum hash blockHash)) :=
    (@DiskOp.holds_apply _ _ _ _ _ BlockTx _ messageStart hash n.disk (.writeUndo undo pos blockHash) hpos).behind
  have hnPos : (undo.writeToDisk messageStart hash n.disk pos blockHash).2.1.nPos.toNat =
      pos.nPos.toNat + (indexHeader messageStart (ser undo).length).length := by
    rw [hwritten, UInt32.toNat_ofNat', Nat.mod_eq_of_lt hlen]
  have hnFile : (undo.writeToDisk messageStart hash n.disk pos blockHash).2.1.nFile = pos.nFile := by rw [hwritten]
  rw [← hnPos, ← hnFile] at hholds
  have hlink : Link hash (undo.writeToDisk messageStart hash n.disk pos blockHash).2.2 n.manager.setBaseViewPtr cw
      ⟨blockHash, txs, undo, (undo.writeToDisk messageStart hash n.disk pos blockHash).2.1⟩ :=
    ⟨hundoes, executeBlock_txIds hexec fun tx htx => (htxs tx htx).1,
      by rw [IneryDiskBlockPos.isNull, hnFile]; exact hpos, hholds, executeBlock_same hchild hops hexec⟩
  generalize n.commit cw = m at *
  refine ⟨_, hstep, hon, h.stored.of_db hdb, ?_, ?_⟩
  · exact .snoc ((h.chained.of_disk fun b hb => hdisk b (List.mem_append_left _ hb)).congr
      (sameViews_setBaseViewPtr n.manager)) hlink hviews
  · rw [restart_of_db hdb]
    exact h.saved.of_disk fun b hb => hdisk b (List.mem_append_right _ hb)

omit [∀ p, LawfulDbUtil (Val p)] in
theorem ChainNode.Good.disconnect (h : n.Good hash w₀) (hchain : n.chain ≠ []) :
    ∃ n', n.step messageStart hash (.disconnect : NodeOp Key Val BlockTx) = some n' ∧ n'.Good hash w₀ := by
  obtain ⟨chain, b, hcb⟩ : ∃ chain b, n.chain = chain ++ [b] :=
    ⟨_, _, (List.dropLast_append_getLast hchain).symm⟩
  have hchained := h.chained
  rw [hcb] at hchained
  obtain ⟨w₁, w₂, h₁, hlink, hw₂⟩ := hchained.last
  obtain ⟨cw, hexec, hw₁⟩ := execute_undoes hlink.undoes (hw₂.trans (sameViews_setBaseViewPtr n.manager))
  have hread : IneryBlockUndo.readFromDisk hash n.disk b.pos b.blockHash = some b.blockUndo :=
    (IneryBlockUndo.readFromDisk_of_holds hlink.txIds hlink.isNull hlink.holds b.blockHash).trans (if_pos rfl)
  obtain ⟨hviews, hon, hdb⟩ := ChainNode.commit_spec h.onDatabases (undoTxs_sameFrame hexec)
  have hstep : n.step messageStart hash (.disconnect : NodeOp Key Val BlockTx) =
      some ⟨n.commit cw, n.disk, chain, n.saved⟩ := by
    rw [ChainNode.step, hcb, List.getLast?_concat, Option.bind_some, hread, Option.bind_some, hexec,
      Option.bind_some, List.dropLast_concat]
    rfl
  generalize n.commit cw = m at *
  refine ⟨_, hstep, hon, h.stored.of_db hdb, h₁.congr (hw₁.trans hviews), ?_⟩
  rw [restart_of_db hdb]
  exact h.saved

/-- **One step of a node.** -/
theorem ChainNode.step_good (h : n.Good hash w₀) {op : NodeOp Key Val BlockTx} (hop : n.Ready messageStart hash op) :
    ∃ n', n.step messageStart hash op = some n' ∧ n'.Good hash w₀ := by
  cases op with
  | connect blockHash txs pos => exact h.connect hop
  | disconnect => exact h.disconnect hop
  | write op =>
    refine ⟨_, rfl, h.onDatabases, h.stored, h.chained.of_disk fun b hb => ?_, h.saved.of_disk fun b hb => ?_⟩
    · exact ChainNode.Spares.holds hop (List.mem_append_left _ hb)
    · exact ChainNode.Spares.holds hop (List.mem_append_right _ hb)
  | flush =>
    have hon : n.manager.managerFlush.OnDatabases := h.onDatabases.flush managerFlushed
    have hstored := stored_managerFlush h.stored
    have hviews : SameViews n.manager n.manager.managerFlush :=
      sameViews_flushed fun p hp => flushedAt_managerFlush n.manager (mem_managerFlushed p hp)
    have hrestart := sameViews_restart h.onDatabases
    rw [ChainNode.step]
    generalize n.manager.managerFlush = m at *
    exact ⟨_, rfl, hon, hstored, h.chained.congr hviews, h.chained.congr hrestart⟩
  | restart => exact ⟨_, rfl, fun p => ⟨rfl, rfl⟩, h.stored, h.saved, h.saved⟩

/-- **The caches follow the chain.** From caches on databases as the assertion of `GetDataPtr` wants them, every run
of blocks that are connected and disconnected, of other writes to the files, of flushes and of restarts goes
through: the undo records are read back with their checksum, and `Execute` returns true. Afterwards the members show
what the blocks of the chain have written, one after the other, to what they showed at first. -/
theorem ChainNode.follows_chain {manager : CCacheWrapper Key Val} (hon : manager.OnDatabases) (hdb : manager.Stored)
    {disk : Disk} {ops : List (NodeOp Key Val BlockTx)}
    (hops : AllSteps (ChainNode.step messageStart hash) (ChainNode.Ready messageStart hash)
      ⟨manager.managerFlush, disk, [], []⟩ ops) :
    ∃ n, run (ChainNode.step messageStart hash) ⟨manager.managerFlush, disk, [], []⟩ ops = some n ∧
      (n.manager.levelViews 0).Same ((n.chain.flatMap ChainBlock.ops).foldl Views.write (manager.levelViews 0)) ∧
      (n.manager.restart.levelViews 0).Same
        ((n.saved.flatMap ChainBlock.ops).foldl Views.write (manager.levelViews 0)) := by
  have hflushed : manager.managerFlush.OnDatabases := hon.flush managerFlushed
  have hstored := stored_managerFlush hdb
  have hviews : SameViews manager manager.managerFlush :=
    sameViews_flushed fun p hp => flushedAt_managerFlush manager (mem_managerFlushed p hp)
  have hrestart := sameViews_restart hon
  generalize manager.managerFlush = m at *
  have hstart : ChainNode.Good hash manager (⟨m, disk, [], []⟩ : ChainNode Key Val) :=
    ⟨hflushed, hstored, .nil hviews, .nil hrestart⟩
  obtain ⟨n, hrun, hn⟩ :=
    run_exists (ChainNode.step messageStart hash) (fun _ _ h hop => ChainNode.step_good h hop) hstart hops
  exact ⟨n, hrun, hn.chained.same, hn.saved.same⟩

end Chain

section Example

open BigEndianKeys LittleEndian

/-- Caches over empty databases. -/
def emptyManager : CCacheWrapper (fun _ => Byte) (fun _ => Byte) :=
  ⟨fun d => ⟨d, ∅⟩, fun _ => ⟨∅, false, 0⟩, fun _ => [], fun _ => ⟨none⟩, fun _ => [], fun _ => false, ∅⟩

theorem stored_emptyManager : emptyManager.Stored := by
  intro p _ _ v hv
  have hempty : emptyManager.dbAccess p = ⟨getDbNameEnumByPrefix p, ∅⟩ := rfl
  rw [hempty] at hv
  cases hv

/-- A block that sets a record is connected, disconnected, and lost in a restart. -/
theorem ChainNode.follows_chain_block :
    let ops : List (NodeOp (fun _ => Byte) (fun _ => Byte) Byte) :=
      [.connect 5 [(List.replicate 32 1, [.setData .sysParam 3 7])] ⟨0, 0⟩, .disconnect, .restart]
    ∃ n, run (ChainNode.step [1, 2, 3, 4] fun _ => 11) ⟨emptyManager.managerFlush, fun _ _ => none, [], []⟩ ops =
      some n ∧ (n.manager.levelViews 0).Same
        ((n.chain.flatMap ChainBlock.ops).foldl Views.write (emptyManager.levelViews 0)) := by
  intro ops
  have hmem : PrefixType.sysParam ∈ members ∧ PrefixType.sysParam.isSimple = false := by decide
  have hheader : ∀ nSize : ℕ, (indexHeader [1, 2, 3, 4] nSize).length = 8 := fun nSize => by
    show (littleEndian 4 _).length + 4 = 8
    rw [littleEndian, List.length_reverse, length_bigEndian]
  have hops : AllSteps (ChainNode.step [1, 2, 3, 4] fun _ => 11) (ChainNode.Ready [1, 2, 3, 4] fun _ => 11)
      ⟨emptyManager.managerFlush, fun _ _ => none, [], []⟩ ops := by
    refine ⟨⟨fun tx htx => ?_, rfl, fun r _ => ⟨?_, fun b hb => absurd hb List.not_mem_nil⟩⟩, fun n hn => ?_⟩
    · rw [List.mem_singleton.mp htx]
      exact ⟨rfl, fun op hop => by rw [List.mem_singleton.mp hop]; exact hmem⟩
    · rw [hheader]
      decide
    · rw [ChainNode.step] at hn
      obtain ⟨r, -, hr⟩ := Option.bind_eq_some_iff.mp hn
      simp only at hr
      split_ifs at hr
      obtain rfl := Option.some.inj hr
      exact ⟨List.cons_ne_nil _ _, fun _ _ => ⟨trivial, fun _ _ => trivial⟩⟩
  obtain ⟨n, hrun, hviews, -⟩ := ChainNode.follows_chain (fun _ => ⟨rfl, rfl⟩) stored_emptyManager hops
  exact ⟨n, hrun, hviews⟩

end Example

end Inery
