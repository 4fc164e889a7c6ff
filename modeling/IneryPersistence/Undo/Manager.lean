import IneryPersistence.Undo.Nested

/-!
# The caches of the database manager

The caches of a `CCacheDBManager` stand on the databases themselves. `Flush` writes one batch for each of them, and
what the caches hold is lost when the program stops. Between two flushes the members are read and written directly,
not through wrappers that are flushed into them, and nothing is said about what the log cache shows.

* `managerFlushed`, `managerFlush`: the members in the order of `CCacheDBManager::Flush`;
* `OnDatabases`, `restart`: caches on the databases, and new ones when the program starts again;
* `restart_of_flushed`, `restart_of_agreeAt`: what a new cache shows, with and without a flush;
* **`restart_after_crash`**: the program stops in the middle of a flush.
-/

namespace Inery

open KV

/-- The members in the order in which `CCacheDBManager::Flush` writes them. -/
def managerFlushed : List PrefixType :=
  [DomainCache.sysParamCache, .accountCache, .assetCache, .contractCache, .delegateCache, .cdpCache, .closedCdpCache,
    .dexCache, .blockCache].flatMap DomainCache.flushed ++ [.txExecuteFail] ++
  [DomainCache.txReceiptCache, .sysGovernCache, .txUtxoCache, .axcCache, .priceFeedCache].flatMap DomainCache.flushed

theorem managerFlushed_nodup : managerFlushed.Nodup := by decide

theorem managerFlushed_inUse : ∀ p ∈ managerFlushed, p.InUse := by decide

theorem mem_managerFlushed : ∀ p ∈ members, p ∈ managerFlushed := by decide

namespace CCacheWrapper

section Model

variable {Key Val : PrefixType → Type} [∀ p, LinearOrder (Key p)]

/-- The caches stand on the databases. -/
def OnDatabases (w : CCacheWrapper Key Val) : Prop := ∀ p, w.compositeBase p = [] ∧ w.simpleBase p = []

/-- The caches of a `CCacheDBManager` that has just been built on the databases. -/
def restart (w : CCacheWrapper Key Val) : CCacheWrapper Key Val where
  db := w.db
  composite _ := ⟨∅, false, 0⟩
  compositeBase _ := []
  simple _ := ⟨none⟩
  simpleBase _ := []
  pDbOpLogMap _ := false
  dbOpLogMap := ∅

variable [∀ p, Serial (Key p)] [∀ p, Serial (Val p)] [∀ p, DbUtil (Val p)]

/-- `CCacheDBManager::Flush`. -/
def managerFlush (w : CCacheWrapper Key Val) : CCacheWrapper Key Val := managerFlushed.foldl flushMember w

end Model

variable {Key Val : PrefixType → Type} [∀ p, LinearOrder (Key p)] [∀ p, Serial (Key p)]
  [∀ p, Serial (Val p)] [∀ p, DbUtil (Val p)] {w w' : CCacheWrapper Key Val} {p : PrefixType}

theorem view_restart (w : CCacheWrapper Key Val) (p : PrefixType) :
    w.restart.view p = CacheStack.view (w.dbAccess p) p [] :=
  funext fun _ => CacheStack.view_cons_of_none _ p rfl

omit [∀ p, Serial (Key p)] in
theorem singleView_restart (w : CCacheWrapper Key Val) (p : PrefixType) :
    w.restart.singleView p = SimpleStack.view (w.dbAccess p) p [] := rfl

omit [∀ p, Serial (Key p)] [∀ p, Serial (Val p)] [∀ p, DbUtil (Val p)] in
theorem OnDatabases.of_length (h : ∀ p, (w.compositeStack p).length = 1 ∧ (w.simpleStack p).length = 1) :
    w.OnDatabases := fun p =>
  ⟨List.eq_nil_of_length_eq_zero (Nat.succ.inj (h p).1), List.eq_nil_of_length_eq_zero (Nat.succ.inj (h p).2)⟩

omit [∀ p, Serial (Key p)] [∀ p, Serial (Val p)] [∀ p, DbUtil (Val p)] in
theorem OnDatabases.length (h : w.OnDatabases) (p : PrefixType) :
    (w.compositeStack p).length = 1 ∧ (w.simpleStack p).length = 1 := by
  rw [compositeStack, simpleStack, (h p).1, (h p).2]
  exact ⟨rfl, rfl⟩

theorem OnDatabases.flush (h : w.OnDatabases) (l : List PrefixType) : (l.foldl flushMember w).OnDatabases := by
  have hframe := flushFrame_foldl w l
  refine .of_length fun p => ?_
  rw [(hframe.composite p).1, (hframe.simple p).1]
  exact h.length p

theorem restart_of_flushed (h : FlushedAt p w w') (hw' : w'.OnDatabases) :
    (p.isSimple = false → w'.restart.view p = w.view p) ∧
      (p.isSimple = true → w'.restart.singleView p = w.singleView p) := by
  refine ⟨fun hs => ?_, fun hs => ?_⟩
  · rw [view_restart, ← (hw' p).1]
    exact (h.composite hs).2
  · rw [singleView_restart, ← (hw' p).2]
    exact (h.simple hs).2

theorem restart_of_agreeAt (h : AgreeAt p w w') :
    w'.restart.view p = w.restart.view p ∧ w'.restart.singleView p = w.restart.singleView p := by
  rw [view_restart, view_restart, singleView_restart, singleView_restart]
  exact ⟨h.view_stack [], h.single_stack []⟩

omit [∀ p, Serial (Key p)] [∀ p, Serial (Val p)] [∀ p, DbUtil (Val p)] in
theorem restart_of_db (h : w'.db = w.db) : w'.restart = w.restart := by
  rw [restart, h]
  rfl

variable [∀ p, LawfulSerial (Key p)] [∀ p, LawfulSerial (Val p)]

/-- **A flush of the manager** flushes every member. -/
theorem flushedAt_managerFlush (w : CCacheWrapper Key Val) (hp : p ∈ managerFlushed) :
    FlushedAt p w w.managerFlush :=
  (flushedAt_foldl (managerFlushed_inUse p hp) managerFlushed_nodup managerFlushed_inUse w).1 hp

/-- **New caches after a flush** show what the old ones did. -/
theorem sameViews_restart (hw : w.OnDatabases) : SameViews w w.managerFlush.restart := fun p hp =>
  restart_of_flushed (flushedAt_managerFlush w (mem_managerFlushed p hp)) (hw.flush managerFlushed)

omit [∀ p, LawfulSerial (Key p)] in
theorem stored_managerFlush (h : w.Stored) : w.managerFlush.Stored := by
  have key : ∀ l : List PrefixType, (∀ p ∈ l, p ∈ managerFlushed) → ∀ w : CCacheWrapper Key Val, w.Stored →
      (l.foldl flushMember w).Stored := by
    intro l hl
    induction l with
    | nil => exact fun w h => h
    | cons p l ih =>
      intro w h
      refine ih (fun q hq => hl q (List.mem_cons_of_mem _ hq)) _ ?_
      by_cases hp : p ∈ members
      · exact stored_flushMember hp h
      · -- the cache of failed transactions has no member in a wrapper
        intro q hq hs v hv
        have hqp : q ≠ p := fun e => hp (e ▸ hq)
        rw [(agreeAt_flushMember (managerFlushed_inUse p (hl p List.mem_cons_self)) (members_inUse q hq)
          hqp).getSingle]
          at hv
        exact h q hq hs v hv
  exact key managerFlushed (fun _ hp => hp) w h

variable [∀ p, DbUtil (Key p)]

omit [∀ p, LawfulSerial (Key p)] [∀ p, LawfulSerial (Val p)] in
theorem OnDatabases.run (h : w.OnDatabases) {ops : List (WrapperOp Key Val)} (hrun : run step w ops = some w') :
    w'.OnDatabases :=
  run_preserves step (fun w₁ op w₂ h₁ hstep => .of_length fun p => by
    have hbelow := step_sameBelow hstep
    rw [(hbelow.composite p).1, (hbelow.simple p).1]
    exact h₁.length p) h hrun

variable [∀ p, LawfulDbUtil (Val p)]

/-- **The program stops in the middle of a flush**, after the batches of the members `l`: started again, these show
what they showed last, and each of the others what it showed at the flush before, whatever operations on the members
of the manager came between the two flushes. The log cache is flushed with them, but it is no member of a wrapper. -/
theorem restart_after_crash {w₁ w₂ : CCacheWrapper Key Val} (hw₁ : w₁.OnDatabases) (hdb : w₁.Stored)
    {ops : List (WrapperOp Key Val)} (hops : ∀ op ∈ ops, op.Valid) (hrun : KV.run step w₁.managerFlush ops = some w₂)
    {l : List PrefixType} (hl : l <+: managerFlushed) (hp : p ∈ members) :
    (p.isSimple = false →
      (l.foldl flushMember w₂).restart.view p = if p ∈ l then w₂.view p else w₁.view p) ∧
    (p.isSimple = true →
      (l.foldl flushMember w₂).restart.singleView p = if p ∈ l then w₂.singleView p else w₁.singleView p) := by
  have hw₂ : w₂.OnDatabases := (hw₁.flush managerFlushed).run hrun
  obtain ⟨w, hrun', hshows⟩ := run_shows (stored_managerFlush hdb) hops
  obtain rfl := Option.some.inj (hrun'.symm.trans hrun)
  have hflush := flushedAt_foldl (members_inUse p hp) (managerFlushed_nodup.sublist hl.sublist)
    (fun q hq => managerFlushed_inUse q (hl.subset hq)) w
  by_cases hmem : p ∈ l
  · rw [if_pos hmem, if_pos hmem]
    exact restart_of_flushed (hflush.1 hmem) (hw₂.flush l)
  · -- the database has what the flush before has written
    have hbefore := restart_of_flushed (flushedAt_managerFlush w₁ (mem_managerFlushed p hp))
      (hw₁.flush managerFlushed)
    obtain ⟨hview, hsingle⟩ := restart_of_agreeAt (hflush.2 hmem)
    rw [if_neg hmem, if_neg hmem, hview, hsingle, restart_of_db hshows.db]
    exact hbefore

/-- A value that was flushed, and one that was set after it: the program stops before and after the batch of the
second member is written. -/
theorem restart_after_crash_byte :
    let w : CCacheWrapper (fun _ => Byte) (fun _ => Byte) :=
      ⟨fun d => ⟨d, ∅⟩, fun _ => ⟨(∅ : SortedMap _ _).insert 3 7, false, 0⟩, fun _ => [], fun _ => ⟨none⟩,
        fun _ => [], fun _ => false, ∅⟩
    ∃ w₂, run step w.managerFlush [.setData .sysParam 3 8, .setData .producerFee 3 9] = some w₂ ∧
      ([.sysParam].foldl flushMember w₂).restart.view .sysParam = w₂.view .sysParam ∧
        ([.sysParam].foldl flushMember w₂).restart.view .producerFee = w.view .producerFee := by
  intro w
  have hdb : w.Stored := by
    intro p _ _ v hv
    have hempty : w.dbAccess p = ⟨getDbNameEnumByPrefix p, ∅⟩ := rfl
    rw [hempty] at hv
    cases hv
  have hw : w.OnDatabases := fun _ => ⟨rfl, rfl⟩
  have hmem : (PrefixType.sysParam ∈ members ∧ PrefixType.sysParam.isSimple = false) ∧
      PrefixType.producerFee ∈ members ∧ PrefixType.producerFee.isSimple = false := by decide
  have hops : ∀ op ∈ ([.setData .sysParam 3 8, .setData .producerFee 3 9] :
      List (WrapperOp (fun _ => Byte) fun _ => Byte)), op.Valid := by
    simp [WrapperOp.Valid, hmem]
  have hl : [PrefixType.sysParam] <+: managerFlushed := by decide
  obtain ⟨w₂, hrun, -⟩ := run_shows (stored_managerFlush hdb) hops
  have h := fun p (hp : p ∈ members) => restart_after_crash hw hdb hops hrun hl hp
  refine ⟨w₂, hrun, ?_, ?_⟩
  · exact ((h _ hmem.1.1).1 rfl).trans (if_pos (by decide))
  · exact ((h _ hmem.2.1).1 rfl).trans (if_neg (by decide))

end CCacheWrapper

end Inery
