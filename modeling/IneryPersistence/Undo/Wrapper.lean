import IneryPersistence.Cache.SameRecords

/-!
# The cache wrapper

A `CCacheWrapper` holds one cache of every record type, grouped in domain classes. Its caches stand
on those of another wrapper and in the end on the databases, which several record types share.

* `DomainCache`, `flushed`, `logged`, `undoable`: the members each function of a class visits;
* `CCacheWrapper`, `WrapperOp`, `step`, `setDbOpLogMap`, `flush`, `newOver`;
* `view`, `singleView`: the flat map, or the value, that a member stands for;
* `members_nodup`, **`agreeAt_flushMember`**: flushing one member moves no other one.
-/

namespace Inery

open KV

/-- The domain caches of a `CCacheWrapper` that keep records, in the order of its functions. -/
inductive DomainCache
  | sysParamCache | blockCache | accountCache | assetCache | contractCache | delegateCache
  | cdpCache | closedCdpCache | dexCache | txReceiptCache | txUtxoCache | axcCache
  | sysGovernCache | priceFeedCache
deriving DecidableEq

namespace DomainCache

open PrefixType

/-- The members that `Flush` visits. -/
def flushed : DomainCache → List PrefixType
  | sysParamCache =>
    [sysParam, producerFee, cdpParam, cdpInterestParams, totalBpsSize, newTotalBpsSize]
  | blockCache =>
    [txidDiskindex, flag, bestBlockhash, lastBlockfile, reindex, finalityBlock,
      blockInflatedReward]
  | accountCache => [keyidAccount, regidKeyid]
  | assetCache => [asset, axcCoinPeertoself, axcCoinSelftopeer]
  | contractCache => [contractDef, contractData, contractAccount, contractTraces]
  | delegateCache => [vote, regidVote, lastVoteHeight, pendingDelegates, activeDelegates]
  | cdpCache => [cdpGlobalData, cdp, cdpInr, userCdp, cdpRatioIndex, cdpHeightIndex]
  | closedCdpCache => [closedCdpTx, closedTxCdp]
  | dexCache =>
    [dexActiveOrder, dexBlockOrders, dexOperatorDetail, dexOperatorOwnerMap, dexOperatorLastId]
  | txReceiptCache => [txReceipt, blockReceipt]
  | txUtxoCache => [txUtxo, utxoPwsdprf]
  | axcCache => [axcSwapIn]
  | sysGovernCache => [sysGovern, govnProp, govnApprovalList]
  | priceFeedCache => [priceFeedCoinPairs, medianPrices]

/-- The members that `SetDbOpLogMap` visits; those of the government cache end with a repetition. -/
def logged : DomainCache → List PrefixType
  | sysGovernCache => [sysGovern, govnProp, govnApprovalList, govnApprovalList]
  | d => d.flushed

/-- The members that `RegisterUndoFunc` visits. -/
def undoable : DomainCache → List PrefixType
  | accountCache => [regidKeyid, keyidAccount]
  | assetCache => [asset, axcCoinSelftopeer, axcCoinPeertoself]
  | d => d.flushed

/-- The order in which the functions of a `CCacheWrapper` visit its domain caches. -/
def all : List DomainCache :=
  [sysParamCache, blockCache, accountCache, assetCache, contractCache, delegateCache, cdpCache,
    closedCdpCache, dexCache, txReceiptCache, txUtxoCache, axcCache, sysGovernCache,
    priceFeedCache]

end DomainCache

/-- The members of a wrapper that are `InerySimpleKVCache`s; the others are composite. -/
def PrefixType.isSimple (p : PrefixType) : Bool :=
  p ∈ [.totalBpsSize, .newTotalBpsSize, .bestBlockhash, .lastBlockfile, .reindex, .finalityBlock,
    .blockInflatedReward, .lastVoteHeight, .pendingDelegates, .activeDelegates,
    .dexOperatorLastId, .sysGovern, .priceFeedCoinPairs, .medianPrices]

/-- The record types a wrapper has a member for. -/
def members : List PrefixType := DomainCache.all.flatMap DomainCache.flushed

theorem members_nodup : members.Nodup := by decide

theorem members_inUse : ∀ p ∈ members, p.InUse := by decide

theorem mem_logged (p : PrefixType) : p ∈ DomainCache.all.flatMap DomainCache.logged ↔ p ∈ members := by
  cases p <;> decide

theorem mem_undoable (p : PrefixType) :
    p ∈ DomainCache.all.flatMap DomainCache.undoable ↔ p ∈ members := by
  cases p <;> decide

/-- A wrapper, member by member, with the caches under each of them and the databases at the bottom.
`pDbOpLogMap` says which members log their writes, and `dbOpLogMap` is the map they log to. -/
structure CCacheWrapper (Key Val : PrefixType → Type) [∀ p, LinearOrder (Key p)] where
  db : DBNameType → CDBAccess
  composite : ∀ p, IneryCompositeKVCache (Key p) (Val p)
  compositeBase : ∀ p, CacheStack (Key p) (Val p)
  simple : ∀ p, InerySimpleKVCache (Val p)
  simpleBase : ∀ p, SimpleStack (Val p)
  pDbOpLogMap : PrefixType → Bool
  dbOpLogMap : CDBOpLogMap

/-- The operations on the members of a wrapper. -/
inductive WrapperOp (Key Val : PrefixType → Type)
  | getData (p : PrefixType) (key : Key p)
  | hasData (p : PrefixType) (key : Key p)
  | setData (p : PrefixType) (key : Key p) (value : Val p)
  | eraseData (p : PrefixType) (key : Key p)
  | getSingle (p : PrefixType)
  | hasSingle (p : PrefixType)
  | setSingle (p : PrefixType) (value : Val p)
  | eraseSingle (p : PrefixType)

section Model

variable {Key Val : PrefixType → Type} [∀ p, LinearOrder (Key p)] [∀ p, Serial (Key p)]
  [∀ p, DbUtil (Key p)] [∀ p, Serial (Val p)] [∀ p, DbUtil (Val p)]

/-- The operation is on a member of its kind. -/
def WrapperOp.Valid : WrapperOp Key Val → Prop
  | getData p _ | hasData p _ | setData p _ _ | eraseData p _ => p ∈ members ∧ p.isSimple = false
  | getSingle p | hasSingle p | setSingle p _ | eraseSingle p => p ∈ members ∧ p.isSimple = true

namespace CCacheWrapper

variable (w : CCacheWrapper Key Val)

/-- The database of a record type. -/
def dbAccess (p : PrefixType) : CDBAccess := w.db (getDbNameEnumByPrefix p)

/-- The map that a member logs to, if it logs. -/
def memberLog (p : PrefixType) : Option CDBOpLogMap :=
  if w.pDbOpLogMap p then some w.dbOpLogMap else none

/-- The wrapper after a member has written its log. -/
def storeLog (log : Option CDBOpLogMap) : CCacheWrapper Key Val :=
  match log with
  | some m => { w with dbOpLogMap := m }
  | none => w

/-- A composite member on top of its bases. -/
def compositeStack (p : PrefixType) : CacheStack (Key p) (Val p) := w.composite p :: w.compositeBase p

/-- A simple member on top of its bases. -/
def simpleStack (p : PrefixType) : SimpleStack (Val p) := w.simple p :: w.simpleBase p

/-- Put back what an operation made of a composite member and its bases. -/
def setComposite (p : PrefixType) : CacheStack (Key p) (Val p) → CCacheWrapper Key Val
  | c :: s =>
    { w with
      composite := Function.update w.composite p c
      compositeBase := Function.update w.compositeBase p s }
  | [] => w

/-- Put back what an operation made of a simple member and its bases. -/
def setSimple (p : PrefixType) : SimpleStack (Val p) → CCacheWrapper Key Val
  | c :: s =>
    { w with
      simple := Function.update w.simple p c
      simpleBase := Function.update w.simpleBase p s }
  | [] => w

def setDb (p : PrefixType) (acc : CDBAccess) : CCacheWrapper Key Val :=
  { w with db := Function.update w.db (getDbNameEnumByPrefix p) acc }

/-- One operation on a member; `none` when an assertion stops the program. -/
def step : WrapperOp Key Val → Option (CCacheWrapper Key Val)
  | .getData p key => some (w.setComposite p (CacheStack.getData (w.dbAccess p) p (w.compositeStack p) key).1)
  | .hasData p key => some (w.setComposite p (CacheStack.hasData (w.dbAccess p) p (w.compositeStack p) key).1)
  | .setData p key value =>
    let r := CacheStack.setData (w.dbAccess p) p (w.memberLog p) (w.compositeStack p) key value
    some ((w.setComposite p r.1).storeLog r.2.2)
  | .eraseData p key =>
    let r := CacheStack.eraseData (w.dbAccess p) p (w.memberLog p) (w.compositeStack p) key
    some ((w.setComposite p r.1).storeLog r.2.2)
  | .getSingle p => (SimpleStack.getData (w.dbAccess p) p (w.simpleStack p)).map fun r => w.setSimple p r.1
  | .hasSingle p => (SimpleStack.hasData (w.dbAccess p) p (w.simpleStack p)).map fun r => w.setSimple p r.1
  | .setSingle p value =>
    (SimpleStack.setData (w.dbAccess p) p (w.memberLog p) (w.simpleStack p) value).map fun r =>
      (w.setSimple p r.1).storeLog r.2
  | .eraseSingle p =>
    (SimpleStack.eraseData (w.dbAccess p) p (w.memberLog p) (w.simpleStack p)).map fun r =>
      (w.setSimple p r.1).storeLog r.2

/-- `SetDbOpLogMap` with the address of an empty map. -/
def setDbOpLogMap : CCacheWrapper Key Val :=
  { w with
    pDbOpLogMap := fun p => p ∈ DomainCache.all.flatMap DomainCache.logged || w.pDbOpLogMap p
    dbOpLogMap := ∅ }

/-- `SetDbOpLogMap(nullptr)`. -/
def clearDbOpLogMap : CCacheWrapper Key Val :=
  { w with
    pDbOpLogMap := fun p => !(p ∈ DomainCache.all.flatMap DomainCache.logged) && w.pDbOpLogMap p }

/-- `Flush` of one member. -/
def flushMember (p : PrefixType) : CCacheWrapper Key Val :=
  if p.isSimple then
    let r := SimpleStack.flush (w.dbAccess p) p (w.simpleStack p)
    (w.setDb p r.1).setSimple p r.2
  else
    let r := CacheStack.flush (w.dbAccess p) p (w.compositeStack p)
    (w.setDb p r.1).setComposite p r.2

/-- `Flush`. -/
def flush : CCacheWrapper Key Val := members.foldl flushMember w

/-- A new wrapper over the base of this one. -/
def newOver : CCacheWrapper Key Val :=
  { w with
    composite := fun _ => ⟨∅, false, 0⟩
    simple := fun _ => ⟨none⟩
    pDbOpLogMap := fun _ => false }

/-- The flat map of a composite member. -/
def view (p : PrefixType) : Key p → Option (Val p) :=
  CacheStack.view (w.dbAccess p) p (w.compositeStack p)

/-- The value of a simple member. -/
def singleView (p : PrefixType) : Option (Val p) :=
  SimpleStack.view (w.dbAccess p) p (w.simpleStack p)

end CCacheWrapper

end Model

/-! ## Members do not meet -/

namespace CCacheWrapper

variable {Key Val : PrefixType → Type} [∀ p, LinearOrder (Key p)] [∀ p, Serial (Key p)]
  [∀ p, Serial (Val p)] {w w' w'' : CCacheWrapper Key Val} {p q : PrefixType}

/-- The caches of a member, and the records of its type, are the same in `w` and `w'`. -/
structure AgreeAt (q : PrefixType) (w w' : CCacheWrapper Key Val) : Prop where
  compositeStack : w'.compositeStack q = w.compositeStack q
  simpleStack : w'.simpleStack q = w.simpleStack q
  getData : (w'.dbAccess q).getData (K := Key q) (V := Val q) q = (w.dbAccess q).getData q
  getSingle : (w'.dbAccess q).getSingle (V := Val q) q = (w.dbAccess q).getSingle q

theorem AgreeAt.refl : AgreeAt q w w where
  compositeStack := rfl
  simpleStack := rfl
  getData := rfl
  getSingle := rfl

theorem AgreeAt.trans (h : AgreeAt q w w') (h' : AgreeAt q w' w'') : AgreeAt q w w'' :=
  ⟨h'.1.trans h.1, h'.2.trans h.2, h'.3.trans h.3, h'.4.trans h.4⟩

theorem agreeAt_setComposite (h : q ≠ p) (s : CacheStack (Key p) (Val p)) :
    AgreeAt q w (w.setComposite p s) := by
  cases s with
  | nil => exact .refl
  | cons c s =>
    refine ⟨?_, rfl, rfl, rfl⟩
    simp [setComposite, CCacheWrapper.compositeStack, Function.update_of_ne h]

theorem agreeAt_setSimple (h : q ≠ p) (s : SimpleStack (Val p)) : AgreeAt q w (w.setSimple p s) := by
  cases s with
  | nil => exact .refl
  | cons c s =>
    refine ⟨rfl, ?_, rfl, rfl⟩
    simp [setSimple, CCacheWrapper.simpleStack, Function.update_of_ne h]

omit [∀ p, Serial (Key p)] [∀ p, Serial (Val p)] in
theorem dbAccess_setDb (w : CCacheWrapper Key Val) (p : PrefixType) (acc : CDBAccess) :
    (w.setDb p acc).dbAccess p = acc := Function.update_self ..

/-- Writing records of one type leaves those of another type, also when they share a database. -/
theorem agreeAt_setDb (hp : p.InUse) (hq : q.InUse) (h : q ≠ p) {acc : CDBAccess}
    (hacc : ∀ key, (∀ t, key ≠ getKeyPrefix p ++ t) → acc.db.find? key = (w.dbAccess p).db.find? key) :
    AgreeAt q w (w.setDb p acc) := by
  have hsame : SameRecords q (w.dbAccess q) ((w.setDb p acc).dbAccess q) := by
    refine sameRecords_of_find? fun t => ?_
    show (Function.update w.db _ acc (getDbNameEnumByPrefix q)).db.find? _ =
      (w.db (getDbNameEnumByPrefix q)).db.find? _
    by_cases hd : getDbNameEnumByPrefix q = getDbNameEnumByPrefix p
    · rw [hd, Function.update_self, hacc _ (getKeyPrefix_append_ne hq hp h t), dbAccess]
    · rw [Function.update_of_ne hd]
  exact ⟨rfl, rfl, funext fun key => hsame.getData _ _ key, hsame.getSingle _⟩

omit [∀ p, Serial (Key p)] [∀ p, Serial (Val p)] in
@[simp] theorem setComposite_db (s : CacheStack (Key p) (Val p)) : (w.setComposite p s).db = w.db := by
  cases s <;> rfl

omit [∀ p, Serial (Key p)] [∀ p, Serial (Val p)] in
@[simp] theorem setSimple_db (s : SimpleStack (Val p)) : (w.setSimple p s).db = w.db := by
  cases s <;> rfl

variable [∀ p, DbUtil (Val p)]

theorem AgreeAt.view_stack (h : AgreeAt q w w') (s : CacheStack (Key q) (Val q)) :
    CacheStack.view (w'.dbAccess q) q s = CacheStack.view (w.dbAccess q) q s :=
  CacheStack.view_of_getData _ q (fun key => congrFun h.getData key) s

theorem AgreeAt.single_stack (h : AgreeAt q w w') (s : SimpleStack (Val q)) :
    SimpleStack.view (w'.dbAccess q) q s = SimpleStack.view (w.dbAccess q) q s :=
  SimpleStack.view_of_getSingle _ q h.getSingle s

theorem AgreeAt.view (h : AgreeAt q w w') : w'.view q = w.view q := by
  rw [CCacheWrapper.view, h.view_stack, h.compositeStack, CCacheWrapper.view]

theorem AgreeAt.singleView (h : AgreeAt q w w') : w'.singleView q = w.singleView q := by
  rw [CCacheWrapper.singleView, h.single_stack, h.simpleStack, CCacheWrapper.singleView]

/-- **Flushing one member moves no other one.** -/
theorem agreeAt_flushMember (hp : p.InUse) (hq : q.InUse) (h : q ≠ p) :
    AgreeAt q w (w.flushMember p) := by
  unfold flushMember
  split_ifs
  · exact (agreeAt_setDb hp hq h fun key hkey => SimpleStack.find?_flush_of_ne _ hkey _).trans
      (agreeAt_setSimple h _)
  · exact (agreeAt_setDb hp hq h fun key hkey => CacheStack.find?_flush_of_ne _ hkey _).trans
      (agreeAt_setComposite h _)

/-- What the flush of a member leaves: an empty cache, over bases with its former view. -/
structure FlushedAt (p : PrefixType) (w w' : CCacheWrapper Key Val) : Prop where
  composite : p.isSimple = false → (w'.composite p).mapData = ∅ ∧
    CacheStack.view (w'.dbAccess p) p (w'.compositeBase p) = w.view p
  simple : p.isSimple = true → (w'.simple p).ptrData = none ∧
    SimpleStack.view (w'.dbAccess p) p (w'.simpleBase p) = w.singleView p

theorem FlushedAt.of_agreeAt (h : FlushedAt p w' w'') (hw : AgreeAt p w w') : FlushedAt p w w'' :=
  ⟨fun hs => ⟨(h.composite hs).1, (h.composite hs).2.trans hw.view⟩,
    fun hs => ⟨(h.simple hs).1, (h.simple hs).2.trans hw.singleView⟩⟩

theorem FlushedAt.agreeAt (h : FlushedAt p w w') (hw : AgreeAt p w' w'') : FlushedAt p w w'' := by
  obtain ⟨hc, hcb⟩ := List.cons.inj hw.compositeStack
  obtain ⟨hs, hsb⟩ := List.cons.inj hw.simpleStack
  refine ⟨fun hp => ⟨?_, ?_⟩, fun hp => ⟨?_, ?_⟩⟩
  · rw [hc, (h.composite hp).1]
  · rw [hcb, hw.view_stack, (h.composite hp).2]
  · rw [hs, (h.simple hp).1]
  · rw [hsb, hw.single_stack, (h.simple hp).2]

theorem flushedAt_flushMember [∀ p, LawfulSerial (Key p)] [∀ p, LawfulSerial (Val p)]
    (w : CCacheWrapper Key Val) (p : PrefixType) : FlushedAt p w (w.flushMember p) := by
  unfold flushMember
  cases hp : p.isSimple with
  | false =>
    refine ⟨fun _ => ?_, fun h => absurd h (by rw [hp]; nofun)⟩
    have hbase := CacheStack.view_flush_base (w.dbAccess p) p (genDbKey_injective p) (w.composite p)
      (w.compositeBase p)
    have hcons := CacheStack.flush_cons (w.dbAccess p) p (w.composite p) (w.compositeBase p)
    rw [if_neg (by nofun)]
    simp only [compositeStack]
    rw [hcons]
    refine ⟨by simp [setComposite], ?_⟩
    simp only [setComposite, Function.update_self]
    exact (congrArg (fun acc => CacheStack.view acc p _) (dbAccess_setDb w p _)).trans hbase
  | true =>
    refine ⟨fun h => absurd h (by rw [hp]; nofun), fun _ => ?_⟩
    obtain ⟨s', hs', hview⟩ := SimpleStack.view_flush_base (w.dbAccess p) p (w.simple p)
      (w.simpleBase p)
    rw [if_pos rfl]
    simp only [simpleStack]
    rw [hs']
    refine ⟨by simp [setSimple], ?_⟩
    simp only [setSimple, Function.update_self]
    exact (congrArg (fun acc => SimpleStack.view acc p _) (dbAccess_setDb w p _)).trans hview

theorem flushedAt_foldl [∀ p, LawfulSerial (Key p)] [∀ p, LawfulSerial (Val p)] {p : PrefixType}
    (hp : p.InUse) {l : List PrefixType} (hl : l.Nodup) (huse : ∀ q ∈ l, q.InUse)
    (w : CCacheWrapper Key Val) : (p ∈ l → FlushedAt p w (l.foldl flushMember w)) ∧
      (p ∉ l → AgreeAt p w (l.foldl flushMember w)) := by
  induction l generalizing w with
  | nil => exact ⟨nofun, fun _ => .refl⟩
  | cons q l ih =>
    obtain ⟨hq, hl⟩ := List.nodup_cons.mp hl
    obtain ⟨ihmem, ihnot⟩ := ih hl (fun q' h => huse q' (List.mem_cons_of_mem _ h)) (w.flushMember q)
    have hagree : p ≠ q → AgreeAt p w (w.flushMember q) :=
      agreeAt_flushMember (huse q List.mem_cons_self) hp
    constructor
    · intro hmem
      by_cases h : p = q
      · subst h
        exact (flushedAt_flushMember w p).agreeAt (ihnot hq)
      · exact (ihmem ((List.mem_cons.mp hmem).resolve_left h)).of_agreeAt (hagree h)
    · intro hnot
      obtain ⟨hne, hnot⟩ := not_or.mp (mt List.mem_cons.mpr hnot)
      exact (hagree hne).trans (ihnot hnot)

/-- **Flushing a wrapper** flushes every member. -/
theorem flushedAt_flush [∀ p, LawfulSerial (Key p)] [∀ p, LawfulSerial (Val p)]
    (w : CCacheWrapper Key Val) {p : PrefixType} (hp : p ∈ members) : FlushedAt p w w.flush :=
  (flushedAt_foldl (members_inUse p hp) members_nodup members_inUse w).1 hp

/-- The assertion of `GetDataPtr` holds for every simple member. -/
def Stored (w : CCacheWrapper Key Val) : Prop :=
  ∀ p ∈ members, p.isSimple = true → SimpleStack.SingleStored (Val p) (w.dbAccess p) p

theorem stored_flushMember [∀ p, LawfulSerial (Val p)] {p : PrefixType} (hp : p ∈ members)
    (h : w.Stored) : (w.flushMember p).Stored := by
  intro q hq hs
  by_cases hqp : q = p
  · subst hqp
    have hflush := SimpleStack.singleStored_flush _ q (h q hq hs) (w.simpleStack q)
    rw [flushMember, if_pos hs, dbAccess, setSimple_db]
    rwa [← dbAccess_setDb w q (SimpleStack.flush (w.dbAccess q) q (w.simpleStack q)).1] at hflush
  · intro v hv
    rw [(agreeAt_flushMember (members_inUse p hp) (members_inUse q hq) hqp).getSingle] at hv
    exact h q hq hs v hv

theorem stored_foldl [∀ p, LawfulSerial (Val p)] {l : List PrefixType} (hl : ∀ p ∈ l, p ∈ members)
    (h : w.Stored) : (l.foldl flushMember w).Stored := by
  induction l generalizing w with
  | nil => exact h
  | cons p l ih =>
    exact ih (fun q hq => hl q (List.mem_cons_of_mem _ hq)) (stored_flushMember (hl p List.mem_cons_self) h)

/-- **A flush keeps what the assertion of `GetDataPtr` asks** of the databases. -/
theorem stored_flush [∀ p, LawfulSerial (Val p)] (h : w.Stored) : w.flush.Stored :=
  stored_foldl (fun _ hp => hp) h

end CCacheWrapper

end Inery
