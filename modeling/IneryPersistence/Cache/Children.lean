import IneryPersistence.Cache.SimpleRefine
import IneryPersistence.Undo.Execute

/-!
# The two ways to build a child cache

`X(X *pBaseIn)` is to build what `X()` and `SetBaseViewPtr(pBaseIn)` build. The initialisers of most classes pass
the caches of the base and not their addresses: such a cache is a copy beside that of the base, and its flush
goes past it.

* `Initializer`, `initializers`: the constructors `X(X *pBaseIn)`;
* `construct`, `setBaseViewPtr`: the two children, and `baseStacks`: the base seen after one of them has run;
* `written`, `Shows`, `step_shows`, **`run_shows`**: what a run leaves in the views;
* `Agrees`, `KeptAt`, **`agrees_iff`**: the two children agree exactly when no copied entry is changed.
-/

namespace Inery

open KV

/-- How an initialiser of `X(X *pBaseIn)` passes a member of the base. -/
inductive Initializer
  | value | address
deriving DecidableEq

namespace DomainCache

open PrefixType

/-- The initialisers of `X(X *pBaseIn)`; a class without this constructor has none. -/
def initializers : DomainCache → List (PrefixType × Initializer)
  | sysParamCache =>
    [(sysParam, .value), (producerFee, .value), (cdpParam, .value), (cdpInterestParams, .value),
      (totalBpsSize, .value), (newTotalBpsSize, .value)]
  | blockCache =>
    [(txidDiskindex, .value), (flag, .value), (bestBlockhash, .value), (lastBlockfile, .value),
      (reindex, .value), (finalityBlock, .value), (blockInflatedReward, .value)]
  | accountCache => [(regidKeyid, .value), (keyidAccount, .value)]
  | assetCache => [(asset, .value), (axcCoinPeertoself, .value), (axcCoinSelftopeer, .value)]
  | contractCache =>
    [(contractDef, .value), (contractData, .value), (contractAccount, .value), (contractTraces, .value)]
  | delegateCache =>
    [(vote, .value), (regidVote, .value), (lastVoteHeight, .value), (pendingDelegates, .value),
      (activeDelegates, .value)]
  | cdpCache =>
    [(cdpGlobalData, .value), (cdp, .value), (cdpInr, .value), (userCdp, .value), (cdpRatioIndex, .value),
      (cdpHeightIndex, .value)]
  | closedCdpCache => [(closedCdpTx, .address), (closedTxCdp, .address)]
  | txUtxoCache => [(txUtxo, .value), (utxoPwsdprf, .value)]
  | axcCache => [(axcSwapIn, .value)]
  | sysGovernCache => [(sysGovern, .value), (govnProp, .value), (govnApprovalList, .value)]
  | dexCache | txReceiptCache | priceFeedCache => []

/-- The initialiser of a member. -/
def initializer (d : DomainCache) (p : PrefixType) : Initializer :=
  ((d.initializers.find? fun e => e.1 = p).map Prod.snd).getD .address

theorem mem_initializers {d : DomainCache} (hd : d.initializers ≠ []) {p : PrefixType} (hp : p ∈ d.flushed) :
    (p, d.initializer p) ∈ d.initializers := by
  revert p
  cases d <;> first | exact absurd rfl hd | decide

theorem initializer_of_mem {d : DomainCache} {p : PrefixType} {i : Initializer} (h : (p, i) ∈ d.initializers) :
    p ∈ d.flushed ∧ d.initializer p = i := by
  have key : ∀ e ∈ d.initializers, e.1 ∈ d.flushed ∧ d.initializer e.1 = e.2 := by
    cases d <;> decide
  exact key (p, i) h

theorem flushed_nodup (d : DomainCache) : d.flushed.Nodup := by
  cases d <;> decide

theorem flushed_subset (d : DomainCache) : ∀ p ∈ d.flushed, p ∈ members := by
  cases d <;> decide

end DomainCache

section Model

variable {Key Val : PrefixType → Type} [∀ p, LinearOrder (Key p)]

/-- The operation is on a member of the class. -/
def WrapperOp.On (d : DomainCache) : WrapperOp Key Val → Prop
  | getData p _ | hasData p _ | setData p _ _ | eraseData p _ => p ∈ d.flushed ∧ p.isSimple = false
  | getSingle p | hasSingle p | setSingle p _ | eraseSingle p => p ∈ d.flushed ∧ p.isSimple = true

omit [∀ p, LinearOrder (Key p)] in
theorem WrapperOp.On.valid {d : DomainCache} {op : WrapperOp Key Val} (h : op.On d) : op.Valid := by
  cases op <;> exact ⟨d.flushed_subset _ h.1, h.2⟩

/-- What an operation writes under a key of a composite member: `some none` when it erases. -/
def WrapperOp.written (p : PrefixType) (key : Key p) : WrapperOp Key Val → Option (Option (Val p))
  | setData q k value => if h : q = p then if h ▸ k = key then some (some (h ▸ value)) else none else none
  | eraseData q k => if h : q = p then if h ▸ k = key then some none else none else none
  | _ => none

/-- What an operation writes to a simple member. -/
def WrapperOp.writtenSingle (p : PrefixType) : WrapperOp Key Val → Option (Option (Val p))
  | setSingle q value => if h : q = p then some (some (h ▸ value)) else none
  | eraseSingle q => if q = p then some none else none
  | _ => none

/-- The caches of a member, of both kinds, and its database. -/
structure MemberStacks (Key Val : PrefixType → Type) [∀ p, LinearOrder (Key p)] (p : PrefixType) where
  acc : CDBAccess
  composite : CacheStack (Key p) (Val p)
  simple : SimpleStack (Val p)

namespace CCacheWrapper

/-- A member with what is under it. -/
def member (w : CCacheWrapper Key Val) (p : PrefixType) : MemberStacks Key Val p :=
  ⟨w.dbAccess p, w.compositeStack p, w.simpleStack p⟩

/-- `X()` and `SetBaseViewPtr`: caches without entries, over those of the base. -/
def setBaseViewPtr (w : CCacheWrapper Key Val) : CCacheWrapper Key Val where
  db := w.db
  composite _ := ⟨∅, false, 0⟩
  compositeBase := w.compositeStack
  simple _ := ⟨none⟩
  simpleBase := w.simpleStack
  pDbOpLogMap _ := false
  dbOpLogMap := w.dbOpLogMap

/-- `X(X *pBaseIn)`: from a value, `operator=` copies the entries, the base and the log of a cache. -/
def construct (d : DomainCache) (w : CCacheWrapper Key Val) : CCacheWrapper Key Val where
  db := w.db
  composite p :=
    match d.initializer p with
    | .value => w.composite p
    | .address => ⟨∅, false, 0⟩
  compositeBase p :=
    match d.initializer p with
    | .value => w.compositeBase p
    | .address => w.compositeStack p
  simple p :=
    match d.initializer p with
    | .value => w.simple p
    | .address => ⟨none⟩
  simpleBase p :=
    match d.initializer p with
    | .value => w.simpleBase p
    | .address => w.simpleStack p
  pDbOpLogMap p :=
    match d.initializer p with
    | .value => w.pDbOpLogMap p
    | .address => false
  dbOpLogMap := w.dbOpLogMap

/-- The members of the base `w` when its child has become `c`: a copied cache shares what is under it with that of
the base, whose own entries the child does not reach; another cache has the base under it. -/
def baseStacks (d : DomainCache) (w c : CCacheWrapper Key Val) (p : PrefixType) : MemberStacks Key Val p where
  acc := c.dbAccess p
  composite :=
    match d.initializer p with
    | .value => w.composite p :: c.compositeBase p
    | .address => c.compositeBase p
  simple :=
    match d.initializer p with
    | .value => w.simple p :: c.simpleBase p
    | .address => c.simpleBase p

variable [∀ p, Serial (Key p)] [∀ p, Serial (Val p)] [∀ p, DbUtil (Val p)]

/-- `Flush` of a domain cache. -/
def flushDomain (d : DomainCache) (w : CCacheWrapper Key Val) : CCacheWrapper Key Val :=
  d.flushed.foldl flushMember w

variable [∀ p, DbUtil (Key p)]

/-- Every read of the member has the same answer. -/
def SameAnswers {p : PrefixType} (m m' : MemberStacks Key Val p) : Prop :=
  (p.isSimple = false → ∀ key,
    (CacheStack.getData m.acc p m.composite key).2 = (CacheStack.getData m'.acc p m'.composite key).2 ∧
      (CacheStack.hasData m.acc p m.composite key).2 = (CacheStack.hasData m'.acc p m'.composite key).2) ∧
  (p.isSimple = true →
    (SimpleStack.getData m.acc p m.simple).map Prod.snd = (SimpleStack.getData m'.acc p m'.simple).map Prod.snd ∧
      (SimpleStack.hasData m.acc p m.simple).map Prod.snd =
        (SimpleStack.hasData m'.acc p m'.simple).map Prod.snd)

/-- The child that `X(X *pBaseIn)` makes is a child of the base `w` as the one of `SetBaseViewPtr` is: all through
the operations both answer every read alike, and after its flush the base answers as the child did just
before. -/
def Agrees (d : DomainCache) (w : CCacheWrapper Key Val) (ops : List (WrapperOp Key Val)) : Prop :=
  (∀ pre, pre <+: ops → ∃ c c', run step (construct d w) pre = some c ∧
    run step w.setBaseViewPtr pre = some c' ∧ ∀ p ∈ d.flushed, SameAnswers (c.member p) (c'.member p)) ∧
  ∃ c, run step (construct d w) ops = some c ∧
    ∀ p ∈ d.flushed, SameAnswers (baseStacks d w (c.flushDomain d) p) (c.member p)

end CCacheWrapper

end Model

/-! ## Answers and views -/

section Answers

variable {Key Val : PrefixType → Type} [∀ p, LinearOrder (Key p)] [∀ p, Serial (Key p)]
  [∀ p, Serial (Val p)] [∀ p, DbUtil (Val p)] [∀ p, DbUtil (Key p)]

theorem CacheStack.sameAnswers_iff {K V : Type} [LinearOrder K] [Serial K] [DbUtil K] [Serial V] [DbUtil V]
    {p : PrefixType} {acc acc' : CDBAccess} {s s' : CacheStack K V} :
    (∀ key, (getData acc p s key).2 = (getData acc' p s' key).2 ∧
      (hasData acc p s key).2 = (hasData acc' p s' key).2) ↔
        ∀ key, isEmpty key = false → view acc p s key = view acc' p s' key := by
  constructor
  · intro h key hkey
    rw [← getData_snd acc p hkey, ← getData_snd acc' p hkey]
    exact (h key).1
  · intro h key
    cases hkey : isEmpty key with
    | true =>
      rw [getData, if_pos hkey, getData, if_pos hkey, hasData, if_pos hkey, hasData, if_pos hkey]
      exact ⟨rfl, rfl⟩
    | false =>
      rw [getData_snd acc p hkey, getData_snd acc' p hkey, hasData_snd acc p hkey, hasData_snd acc' p hkey,
        h key hkey]
      exact ⟨rfl, rfl⟩

theorem SimpleStack.sameAnswers_iff {V : Type} [Serial V] [DbUtil V] {p : PrefixType} {acc acc' : CDBAccess}
    (hacc : SingleStored V acc p) (hacc' : SingleStored V acc' p) {s s' : SimpleStack V} :
    ((getData acc p s).map Prod.snd = (getData acc' p s').map Prod.snd ∧
      (hasData acc p s).map Prod.snd = (hasData acc' p s').map Prod.snd) ↔ view acc p s = view acc' p s' := by
  obtain ⟨r, hr⟩ := getDataPtr_isSome acc p hacc s
  obtain ⟨r', hr'⟩ := getDataPtr_isSome acc' p hacc' s'
  have hfind := (getDataPtr_spec acc p hr).1
  have hfind' := (getDataPtr_spec acc' p hr').1
  rw [getData, getData, hasData, hasData, hr, hr', Option.map_some, Option.map_some, Option.map_some,
    Option.map_some, Option.map_some, Option.map_some, Option.map_some, Option.map_some, hfind, hfind']
  constructor
  · exact fun h => Option.some.inj h.1
  · intro h
    have hlive : live (find acc p s) = live (find acc' p s') := h
    rw [hlive]
    exact ⟨rfl, rfl⟩

namespace CCacheWrapper

theorem sameAnswers_iff {p : PrefixType} {m m' : MemberStacks Key Val p}
    (hm : p.isSimple = true → SimpleStack.SingleStored (Val p) m.acc p)
    (hm' : p.isSimple = true → SimpleStack.SingleStored (Val p) m'.acc p) :
    SameAnswers m m' ↔
      (p.isSimple = false → ∀ key, isEmpty key = false →
        CacheStack.view m.acc p m.composite key = CacheStack.view m'.acc p m'.composite key) ∧
      (p.isSimple = true → SimpleStack.view m.acc p m.simple = SimpleStack.view m'.acc p m'.simple) :=
  and_congr (imp_congr_right fun _ => CacheStack.sameAnswers_iff)
    (forall_congr' fun hs => SimpleStack.sameAnswers_iff (hm hs) (hm' hs))

end CCacheWrapper

end Answers

/-! ## Runs -/

namespace CCacheWrapper

section Runs

variable {Key Val : PrefixType → Type} [∀ p, LinearOrder (Key p)] [∀ p, Serial (Key p)]
  [∀ p, DbUtil (Key p)] [∀ p, Serial (Val p)] [∀ p, DbUtil (Val p)]

/-- The views after the operations: what was written last, or else what there was. -/
structure Shows (ops : List (WrapperOp Key Val)) (w w' : CCacheWrapper Key Val) : Prop where
  db : w'.db = w.db
  composite : ∀ p ∈ members, p.isSimple = false → ∀ key, isEmpty key = false →
    w'.view p key = ((lastSome (WrapperOp.written p key) ops).map live).getD (w.view p key)
  simple : ∀ p ∈ members, p.isSimple = true →
    w'.singleView p = ((lastSome (WrapperOp.writtenSingle p) ops).map live).getD (w.singleView p)

variable {w w₁ w' : CCacheWrapper Key Val} {p : PrefixType}

theorem Shows.cons {op : WrapperOp Key Val} {ops : List (WrapperOp Key Val)} (h₁ : Shows [op] w w₁)
    (h : Shows ops w₁ w') : Shows (op :: ops) w w' where
  db := h.db.trans h₁.db
  composite p hp hs key hkey := by
    rw [h.composite p hp hs key hkey, h₁.composite p hp hs key hkey, lastSome_cons _ op ops, Option.map_or,
      Option.getD_or, lastSome_cons _ op []]
    rfl
  simple p hp hs := by
    rw [h.simple p hp hs, h₁.simple p hp hs, lastSome_cons _ op ops, Option.map_or, Option.getD_or,
      lastSome_cons _ op []]
    rfl

theorem Shows.of_sameViews {op : WrapperOp Key Val} (hdb : w'.db = w.db) (h : SameViews w w')
    (hop : ∀ p key, isEmpty key = false → op.written p key = none) (hop' : ∀ p, op.writtenSingle p = none) :
    Shows [op] w w' where
  db := hdb
  composite p hp hs key hkey := by
    rw [(h p hp).1 hs, lastSome_cons, hop p key hkey]
    rfl
  simple p hp hs := by
    rw [(h p hp).2 hs, lastSome_cons, hop']
    rfl

omit [∀ p, Serial (Key p)] [∀ p, Serial (Val p)] [∀ p, DbUtil (Val p)] in
theorem dite_key_eq_none {A : Type} {q : PrefixType} {key : Key p} {k : Key q} (hkey : isEmpty key = true)
    (hk : isEmpty k = false) (a : p = q → Option A) :
    (if h : p = q then if h ▸ key = k then a h else none else none) = none := by
  refine dite_eq_right_iff.mpr fun h => ?_
  subst h
  refine if_neg fun heq => ?_
  have heq' : key = k := heq
  rw [heq', hk] at hkey
  cases hkey

theorem unwritten_shows {op : WrapperOp Key Val} (hp : p.isSimple = false)
    (hop : ∀ p key, isEmpty key = false → op.written p key = none) (hop' : ∀ p, op.writtenSingle p = none) :
    Shows [op] w ((w.setComposite p (w.compositeStack p)).storeLog (w.memberLog p)) := by
  refine .of_sameViews (by simp) ?_ hop hop'
  rw [show w.memberLog p = (w.setComposite p (w.compositeStack p)).memberLog p from rfl, storeLog_memberLog]
  exact sameViews_setComposite hp rfl

theorem Shows.of_update {op : WrapperOp Key Val} {s : CacheStack (Key p) (Val p)} {log : Option CDBOpLogMap}
    {k : Key p} {o : Option (Val p)} (hp : p.isSimple = false) (hs : s ≠ [])
    (hview : CacheStack.view (w.dbAccess p) p s = Function.update (w.view p) k (live o))
    (hself : ∀ key, op.written p key = if k = key then some o else none)
    (hother : ∀ q, q ≠ p → ∀ key, op.written q key = none) (hsingle : ∀ q, op.writtenSingle q = none) :
    Shows [op] w ((w.setComposite p s).storeLog log) := by
  obtain ⟨c, s, rfl⟩ := List.exists_cons_of_ne_nil hs
  have hagree : ∀ q, q ≠ p → AgreeAt q w ((w.setComposite p (c :: s)).storeLog log) := fun q hq =>
    (agreeAt_setComposite hq _).trans (agreeAt_storeLog _ q log)
  refine ⟨by simp, fun q hq hqs key _ => ?_, fun q hq hqs => ?_⟩
  · rw [lastSome_cons, lastSome_nil, Option.none_or]
    by_cases hqp : q = p
    · subst hqp
      rw [(agreeAt_storeLog _ q log).view, view_setComposite, hview, hself]
      by_cases hk : k = key
      · subst hk
        rw [Function.update_self, if_pos rfl]
        rfl
      · rw [Function.update_of_ne (Ne.symm hk), if_neg hk]
        rfl
    · rw [(hagree q hqp).view, hother q hqp]
      rfl
  · rw [lastSome_cons, hsingle, (hagree q fun e => by simp [e, hp] at hqs).singleView]
    rfl

theorem Shows.of_value {op : WrapperOp Key Val} {s : SimpleStack (Val p)} {log : Option CDBOpLogMap}
    {o : Option (Val p)} (hp : p.isSimple = true) (hs : s ≠ [])
    (hview : SimpleStack.view (w.dbAccess p) p s = live o) (hself : op.writtenSingle p = some o)
    (hother : ∀ q, q ≠ p → op.writtenSingle q = none) (hcomp : ∀ q key, op.written q key = none) :
    Shows [op] w ((w.setSimple p s).storeLog log) := by
  obtain ⟨c, s, rfl⟩ := List.exists_cons_of_ne_nil hs
  have hagree : ∀ q, q ≠ p → AgreeAt q w ((w.setSimple p (c :: s)).storeLog log) := fun q hq =>
    (agreeAt_setSimple hq _).trans (agreeAt_storeLog _ q log)
  refine ⟨by simp, fun q hq hqs key _ => ?_, fun q hq hqs => ?_⟩
  · rw [lastSome_cons, hcomp, (hagree q fun e => by simp [e, hp] at hqs).view]
    rfl
  · rw [lastSome_cons, lastSome_nil, Option.none_or]
    by_cases hqp : q = p
    · subst hqp
      rw [(agreeAt_storeLog _ q log).singleView, singleView_setSimple, hview, hself]
      rfl
    · rw [(hagree q hqp).singleView, hother q hqp]
      rfl

variable [∀ p, LawfulSerial (Val p)] [∀ p, LawfulDbUtil (Val p)]

/-- **One operation** of the child. -/
theorem step_shows (hdb : w.Stored) {op : WrapperOp Key Val} (hop : op.Valid) :
    ∃ w', w.step op = some w' ∧ Shows [op] w w' := by
  cases op with
  | getData p key =>
    obtain ⟨c, s, hcons, hview⟩ := CacheStack.getData_cons (w.dbAccess p) p (w.composite p)
      (w.compositeBase p) key
    refine ⟨_, rfl, .of_sameViews (by simp) ?_ (fun _ _ _ => rfl) fun _ => rfl⟩
    rw [compositeStack, hcons]
    exact sameViews_setComposite hop.2 hview
  | hasData p key =>
    obtain ⟨c, s, hcons, hview⟩ := CacheStack.getData_cons (w.dbAccess p) p (w.composite p)
      (w.compositeBase p) key
    refine ⟨_, rfl, .of_sameViews (by simp) ?_ (fun _ _ _ => rfl) fun _ => rfl⟩
    rw [CacheStack.hasData_fst, compositeStack, hcons]
    exact sameViews_setComposite hop.2 hview
  | setData p key value =>
    cases hkey : isEmpty key with
    | true =>
      refine ⟨_, rfl, ?_⟩
      rw [CacheStack.setData, if_pos hkey]
      exact unwritten_shows hop.2 (fun q k hk => dite_key_eq_none hkey hk _) fun _ => rfl
    | false =>
      obtain ⟨s, log, hset, hs, hview⟩ := CacheStack.setData_spec (w.dbAccess p) p hkey (w.memberLog p)
        (List.cons_ne_nil (w.composite p) (w.compositeBase p)) value
      refine ⟨_, by rw [step, compositeStack, hset], .of_update hop.2 hs hview ?_ ?_ fun _ => rfl⟩
      · exact fun k => dif_pos rfl
      · exact fun q hq k => dif_neg hq.symm
  | eraseData p key =>
    cases hkey : isEmpty key with
    | true =>
      refine ⟨_, rfl, ?_⟩
      rw [CacheStack.eraseData, if_pos hkey]
      exact unwritten_shows hop.2 (fun q k hk => dite_key_eq_none hkey hk _) fun _ => rfl
    | false =>
      obtain ⟨s, log, her, hs, hview⟩ := CacheStack.eraseData_spec (w.dbAccess p) p hkey (w.memberLog p)
        (List.cons_ne_nil (w.composite p) (w.compositeBase p))
      refine ⟨_, by rw [step, compositeStack, her], .of_update (o := none) hop.2 hs hview ?_ ?_ fun _ => rfl⟩
      · exact fun k => dif_pos rfl
      · exact fun q hq k => dif_neg hq.symm
  | getSingle p | hasSingle p =>
    obtain ⟨r, hr⟩ := SimpleStack.getDataPtr_isSome _ p (hdb p hop.1 hop.2) (w.simpleStack p)
    refine ⟨w.setSimple p r.1, ?_, .of_sameViews (by simp) ?_ (fun _ _ _ => rfl) fun _ => rfl⟩
    · simp [step, SimpleStack.getData, SimpleStack.hasData, hr]
    · have hfind := (SimpleStack.getDataPtr_spec _ p hr).2 0
      obtain ⟨s', rfl, -⟩ := SimpleStack.getDataPtr_cons _ p hr
      exact sameViews_setSimple hop.2 (congrArg live hfind)
  | setSingle p value =>
    obtain ⟨s, log, hset, hview, -⟩ := (SimpleStack.refinesValue (hdb p hop.1 hop.2) (w.memberLog p) []
      (w.simple p) (w.simpleBase p)).setData value
    obtain ⟨-, s', rfl, -⟩ := SimpleStack.setData_cons (w.dbAccess p) p hset
    refine ⟨_, by rw [step, simpleStack, hset]; rfl,
      .of_value hop.2 (List.cons_ne_nil _ _) hview ?_ ?_ fun _ _ => rfl⟩
    · exact dif_pos rfl
    · exact fun q hq => dif_neg hq.symm
  | eraseSingle p =>
    obtain ⟨s, log, hset, hview, -⟩ := (SimpleStack.refinesValue (hdb p hop.1 hop.2) (w.memberLog p) []
      (w.simple p) (w.simpleBase p)).eraseData
    obtain ⟨c', s', rfl, -⟩ := SimpleStack.eraseData_cons (w.dbAccess p) p hset
    refine ⟨_, by rw [step, simpleStack, hset]; rfl, .of_value hop.2 (List.cons_ne_nil _ _)
      (hview.trans live_none.symm) ?_ ?_ fun _ _ => rfl⟩
    · exact if_pos rfl
    · exact fun q hq => if_neg hq.symm

/-- **A run** of the child. -/
theorem run_shows (hdb : w.Stored) {ops : List (WrapperOp Key Val)} (hops : ∀ op ∈ ops, op.Valid) :
    ∃ w', run step w ops = some w' ∧ Shows ops w w' := by
  induction ops generalizing w with
  | nil => exact ⟨w, rfl, rfl, fun _ _ _ _ _ => rfl, fun _ _ _ => rfl⟩
  | cons op ops ih =>
    obtain ⟨w₁, h₁, hshows₁⟩ := step_shows hdb (hops op List.mem_cons_self)
    have hdb₁ : w₁.Stored := by
      intro p hp hs
      rw [dbAccess, hshows₁.db]
      exact hdb p hp hs
    obtain ⟨w', hrun, hshows⟩ := ih hdb₁ fun op' h => hops op' (List.mem_cons_of_mem _ h)
    exact ⟨w', by rw [run_cons, h₁]; exact hrun, hshows₁.cons hshows⟩

end Runs

/-! ## The two children -/

section Children

variable {Key Val : PrefixType → Type} [∀ p, LinearOrder (Key p)] [∀ p, Serial (Key p)]
  [∀ p, Serial (Val p)] [∀ p, DbUtil (Val p)] (d : DomainCache) (w : CCacheWrapper Key Val)

theorem view_setBaseViewPtr (p : PrefixType) : w.setBaseViewPtr.view p = w.view p :=
  funext fun _ => CacheStack.view_cons_of_none _ p rfl

omit [∀ p, Serial (Key p)] in
theorem singleView_setBaseViewPtr (p : PrefixType) : w.setBaseViewPtr.singleView p = w.singleView p := rfl

omit [∀ p, Serial (Key p)] [∀ p, Serial (Val p)] [∀ p, DbUtil (Val p)] in
theorem member_construct (p : PrefixType) : (construct d w).member p =
    match d.initializer p with
    | .value => w.member p
    | .address => w.setBaseViewPtr.member p := by
  simp only [member, compositeStack, simpleStack, construct]
  cases d.initializer p <;> rfl

theorem view_construct (p : PrefixType) : (construct d w).view p = w.view p := by
  show CacheStack.view ((construct d w).member p).acc p ((construct d w).member p).composite = w.view p
  rw [member_construct]
  cases d.initializer p with
  | value => rfl
  | address => exact view_setBaseViewPtr w p

omit [∀ p, Serial (Key p)] in
theorem singleView_construct (p : PrefixType) : (construct d w).singleView p = w.singleView p := by
  show SimpleStack.view ((construct d w).member p).acc p ((construct d w).member p).simple = w.singleView p
  rw [member_construct]
  cases d.initializer p with
  | value => rfl
  | address => rfl

end Children

end CCacheWrapper

/-! ## Copies beside the base -/

/-- A cache beside the one that has been flushed shows what was written, where its own entries are not older. -/
theorem CacheStack.view_beside_iff {K V : Type} [LinearOrder K] [Serial K] [DbUtil K] [Serial V] [DbUtil V]
    {acc : CDBAccess} {p : PrefixType} {c : IneryCompositeKVCache K V} {s : CacheStack K V}
    {before after : K → Option V} (written : K → Option (Option V)) (hs : view acc p s = after)
    (hafter : ∀ key, isEmpty key = false → after key = ((written key).map live).getD (before key))
    (hbefore : ∀ key v, c.mapData.find? key = some v → before key = live (some v)) :
    (∀ key, isEmpty key = false → view acc p (c :: s) key = after key) ↔
      ∀ key v, c.mapData.find? key = some v → isEmpty key = false → ∀ o, written key = some o →
        live o = live (some v) := by
  constructor
  · intro h key v hfind hkey o ho
    have hkey' := h key hkey
    rw [view_cons_of_some acc p hfind, hafter key hkey, ho] at hkey'
    exact hkey'.symm
  · intro h key hkey
    cases hfind : c.mapData.find? key with
    | none => rw [view_cons_of_none acc p hfind, hs]
    | some v =>
      rw [view_cons_of_some acc p hfind, hafter key hkey]
      cases ho : written key with
      | none => exact (hbefore key v hfind).symm
      | some o => exact (h key v hfind hkey o ho).symm

theorem SimpleStack.view_beside_iff {V : Type} [Serial V] [DbUtil V] {acc : CDBAccess} {p : PrefixType}
    {c : InerySimpleKVCache V} {s : SimpleStack V} {before after : Option V} (written : Option (Option V))
    (hs : view acc p s = after) (hafter : after = (written.map live).getD before)
    (hbefore : ∀ v, c.ptrData = some v → before = live (some v)) :
    view acc p (c :: s) = after ↔
      ∀ v, c.ptrData = some v → ∀ o, written = some o → live o = live (some v) := by
  obtain ⟨_ | v⟩ := c
  · exact iff_of_true hs nofun
  · have htop : view acc p (⟨some v⟩ :: s) = live (some v) := rfl
    rw [htop]
    constructor
    · intro h v' hv o ho
      obtain rfl := Option.some.inj hv
      rw [h, hafter, ho]
      rfl
    · intro h
      rw [hafter]
      cases ho : written with
      | none => exact (hbefore v rfl).symm
      | some o => exact (h v rfl o ho).symm

namespace CCacheWrapper

section Agreement

variable {Key Val : PrefixType → Type} [∀ p, LinearOrder (Key p)] [∀ p, Serial (Key p)]
  [∀ p, DbUtil (Key p)] [∀ p, Serial (Val p)] [∀ p, DbUtil (Val p)]

/-- What the operations leave under the keys that the base holds itself is what it holds. -/
structure KeptAt (p : PrefixType) (w : CCacheWrapper Key Val) (ops : List (WrapperOp Key Val)) : Prop where
  composite : p.isSimple = false → ∀ key v, (w.composite p).mapData.find? key = some v →
    isEmpty key = false → ∀ o, lastSome (WrapperOp.written p key) ops = some o → live o = live (some v)
  simple : p.isSimple = true → ∀ v, (w.simple p).ptrData = some v →
    ∀ o, lastSome (WrapperOp.writtenSingle p) ops = some o → live o = live (some v)

variable {d : DomainCache} {w c c' : CCacheWrapper Key Val} {p : PrefixType} {ops : List (WrapperOp Key Val)}

/-- **A member of the base after the flush** of the child. -/
theorem baseStacks_iff (hp : p ∈ members) (hc : Shows ops (construct d w) c) (hflush : FlushedAt p c c')
    (hdb : c.Stored) (hdb' : c'.Stored) :
    SameAnswers (baseStacks d w c' p) (c.member p) ↔ (d.initializer p = .value → KeptAt p w ops) := by
  rw [sameAnswers_iff (hdb' p hp) (hdb p hp)]
  unfold baseStacks
  cases hi : d.initializer p with
  | address =>
    refine iff_of_true ⟨fun hs key _ => ?_, fun hs => ?_⟩ nofun
    · exact congrFun (hflush.composite hs).2 key
    · exact (hflush.simple hs).2
  | value =>
    have hcomp := fun hs => CacheStack.view_beside_iff (c := w.composite p)
      (fun key => lastSome (WrapperOp.written p key) ops) (hflush.composite hs).2
      (fun key hkey => (hc.composite p hp hs key hkey).trans (by rw [view_construct]; rfl))
      (fun key v hfind => CacheStack.view_cons_of_some (w.dbAccess p) p (s := w.compositeBase p) hfind)
    have hsimple := fun hs => SimpleStack.view_beside_iff (c := w.simple p)
      (lastSome (WrapperOp.writtenSingle p) ops) (hflush.simple hs).2
      (by rw [hc.simple p hp hs, singleView_construct])
      (fun v hv => by
        rw [CCacheWrapper.singleView, SimpleStack.view, simpleStack, SimpleStack.find_cons, hv]
        rfl)
    constructor
    · rintro ⟨h, h'⟩ -
      exact ⟨fun hs => (hcomp hs).mp (h hs), fun hs => (hsimple hs).mp (h' hs)⟩
    · intro h
      exact ⟨fun hs => (hcomp hs).mpr ((h rfl).composite hs), fun hs => (hsimple hs).mpr ((h rfl).simple hs)⟩

variable [∀ p, LawfulSerial (Key p)] [∀ p, LawfulSerial (Val p)] [∀ p, LawfulDbUtil (Val p)]

/-- **The two children agree** exactly when no run changes what a base, whose cache was copied, holds itself:
always when the initialisers pass addresses. -/
theorem agrees_iff (hd : d.initializers ≠ []) (hdb : w.Stored) (hops : ∀ op ∈ ops, op.On d) :
    Agrees d w ops ↔ ∀ p, (p, .value) ∈ d.initializers → KeptAt p w ops := by
  have hchild : ∀ pre, pre <+: ops → ∃ c, run step (construct d w) pre = some c ∧
      Shows pre (construct d w) c := fun pre hpre =>
    run_shows (w := construct d w) hdb fun op hop => (hops op (hpre.subset hop)).valid
  have hsetBase : ∀ pre, pre <+: ops → ∃ c, run step w.setBaseViewPtr pre = some c ∧
      Shows pre w.setBaseViewPtr c := fun pre hpre =>
    run_shows (w := w.setBaseViewPtr) hdb fun op hop => (hops op (hpre.subset hop)).valid
  have hstored : ∀ c : CCacheWrapper Key Val, c.db = w.db → c.Stored := fun c hc p hp hs => by
    rw [dbAccess, hc]
    exact hdb p hp hs
  have hreads : ∀ pre, pre <+: ops → ∃ c c', run step (construct d w) pre = some c ∧
      run step w.setBaseViewPtr pre = some c' ∧ ∀ p ∈ d.flushed, SameAnswers (c.member p) (c'.member p) := by
    intro pre hpre
    obtain ⟨c, hrun, hc⟩ := hchild pre hpre
    obtain ⟨c', hrun', hc'⟩ := hsetBase pre hpre
    refine ⟨c, c', hrun, hrun', fun p hp => ?_⟩
    have hmem := d.flushed_subset p hp
    refine (sameAnswers_iff (hstored c hc.db p hmem) (hstored c' hc'.db p hmem)).mpr
      ⟨fun hs key hkey => ?_, fun hs => ?_⟩
    · refine (hc.composite p hmem hs key hkey).trans (.trans ?_ (hc'.composite p hmem hs key hkey).symm)
      rw [view_construct, view_setBaseViewPtr]
    · refine (hc.simple p hmem hs).trans (.trans ?_ (hc'.simple p hmem hs).symm)
      rw [singleView_construct, singleView_setBaseViewPtr]
  obtain ⟨c, hrun, hc⟩ := hchild ops List.prefix_rfl
  have hbase : ∀ p ∈ d.flushed, SameAnswers (baseStacks d w (c.flushDomain d) p) (c.member p) ↔
      (d.initializer p = .value → KeptAt p w ops) := by
    intro p hp
    have hflush := (flushedAt_foldl (members_inUse p (d.flushed_subset p hp)) d.flushed_nodup
      (fun q hq => members_inUse q (d.flushed_subset q hq)) c).1 hp
    exact baseStacks_iff (d.flushed_subset p hp) hc hflush (hstored c hc.db)
      (stored_foldl d.flushed_subset (hstored c hc.db))
  constructor
  · rintro ⟨-, c₁, hrun₁, h⟩ p hp
    obtain rfl := Option.some.inj (hrun.symm.trans hrun₁)
    obtain ⟨hmem, hi⟩ := DomainCache.initializer_of_mem hp
    exact (hbase p hmem).mp (h p hmem) hi
  · intro h
    refine ⟨hreads, c, hrun, fun p hp => (hbase p hp).mpr fun hi => h p ?_⟩
    rw [← hi]
    exact DomainCache.mem_initializers hd hp

end Agreement

/-- A base over an empty database whose account cache holds one entry. -/
def oneAccount : CCacheWrapper (fun _ => Byte) (fun _ => Byte) where
  db d := ⟨d, ∅⟩
  composite p := if p = .keyidAccount then ⟨(∅ : SortedMap _ _).insert 1 5, true, 2⟩ else ⟨∅, true, 0⟩
  compositeBase _ := []
  simple _ := ⟨none⟩
  simpleBase _ := []
  pDbOpLogMap _ := false
  dbOpLogMap := ∅

theorem stored_oneAccount : oneAccount.Stored := by
  intro p _ _ v hv
  have hempty : oneAccount.dbAccess p = ⟨getDbNameEnumByPrefix p, ∅⟩ := rfl
  rw [hempty] at hv
  exact absurd hv nofun

/-- A child that reads the entry of its base and sets another one. -/
theorem agrees_other_key :
    Agrees .accountCache oneAccount [.getData .keyidAccount 1, .setData .keyidAccount 2 7] := by
  refine (agrees_iff (by decide) stored_oneAccount ?_).mpr fun p hp => ⟨fun _ key v hfind _ o ho => ?_,
    fun _ v hv => by cases hv⟩
  · simp [WrapperOp.On, DomainCache.flushed, PrefixType.isSimple]
  · by_cases hp' : p = .keyidAccount
    · subst hp'
      by_cases hkey : key = 1
      · subst hkey
        cases ho
      · have hmap : (oneAccount.composite .keyidAccount).mapData = (∅ : SortedMap Byte Byte).insert 1 5 := rfl
        rw [hmap, SortedMap.find?_insert_of_ne _ hkey] at hfind
        cases hfind
    · have hempty : oneAccount.composite p = ⟨∅, true, 0⟩ := if_neg hp'
      rw [hempty] at hfind
      cases hfind

/-- A child that changes the entry: after its flush, the base still answers 5 where the child answered 9, and
where the base of `SetBaseViewPtr` answers 9. -/
theorem flush_past_base :
    ∃ c c', run step (construct .accountCache oneAccount) [.setData .keyidAccount 1 9] = some c ∧
      run step oneAccount.setBaseViewPtr [.setData .keyidAccount 1 9] = some c' ∧
      (CacheStack.getData (c.dbAccess .keyidAccount) .keyidAccount (c.compositeStack .keyidAccount) 1).2 = some 9 ∧
      (let base := baseStacks .accountCache oneAccount (c.flushDomain .accountCache) .keyidAccount;
        (CacheStack.getData base.acc .keyidAccount base.composite 1).2 = some 5) ∧
      (let base := c'.flushDomain .accountCache;
        (CacheStack.getData (base.dbAccess .keyidAccount) .keyidAccount (base.compositeBase .keyidAccount) 1).2 =
          some 9) ∧
      ¬Agrees .accountCache oneAccount [.setData .keyidAccount 1 9] := by
  refine ⟨_, _, rfl, rfl, by decide +kernel, by decide +kernel, by decide +kernel, ?_⟩
  rintro ⟨-, c, hrun, h⟩
  obtain rfl := Option.some.inj hrun
  have hanswer := ((h .keyidAccount (by decide)).1 rfl 1).1
  exact absurd hanswer (by decide +kernel)

end CCacheWrapper

end Inery
