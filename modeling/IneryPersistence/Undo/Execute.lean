import IneryPersistence.Undo.Wrapper
import IneryPersistence.Lib.Runs
import Mathlib.Data.List.Induction

/-!
# Block undo

`IneryTxUndoOpLogger` collects, per transaction, the old value of every write to the caches of a
wrapper. `IneryBlockUndoExecutor` puts the old values back, the last transaction first and, for each
member, the last write first.

* `IneryTxUndo`, `executeTx`, `executeBlock`: running the transactions of a block under the logger;
* `undoMember`, `undoTx`, `execute`: the executor;
* `TxUndoes`: the log of a transaction leads from the views after it back to those before;
* `step_logged`, `executeTx_undoes`, `undoTx_spec`: writing it, and replaying it;
* **`execute_inverts_executeBlock`**: undo is the inverse of execution, on the wrapper itself and on
  a new one over the flushed base.
-/

namespace Inery

open KV

/-- `IneryTxUndo`. -/
structure IneryTxUndo where
  txid : Bytes
  dbOpLogMap : CDBOpLogMap

/-- `IneryBlockUndo`: the member `vtxundo`. -/
abbrev IneryBlockUndo := List IneryTxUndo

namespace CCacheWrapper

variable {Key Val : PrefixType → Type} [∀ p, LinearOrder (Key p)] [∀ p, Serial (Key p)]
  [∀ p, DbUtil (Key p)] [∀ p, Serial (Val p)] [∀ p, DbUtil (Val p)]

/-- A transaction under an `IneryTxUndoOpLogger`: its id and the operations it makes. -/
abbrev Tx (Key Val : PrefixType → Type) := Bytes × List (WrapperOp Key Val)

/-- The life of an `IneryTxUndoOpLogger` around the operations of a transaction. -/
def executeTx (r : CCacheWrapper Key Val × IneryBlockUndo) (tx : Tx Key Val) :
    Option (CCacheWrapper Key Val × IneryBlockUndo) :=
  (run step r.1.setDbOpLogMap tx.2).map fun w =>
    (w.clearDbOpLogMap, r.2 ++ [⟨tx.1, w.dbOpLogMap⟩])

/-- The transactions of a block, one after the other. -/
def executeBlock (w : CCacheWrapper Key Val) (txs : List (Tx Key Val)) :
    Option (CCacheWrapper Key Val × IneryBlockUndo) :=
  run executeTx (w, []) txs

/-- The function that `RegisterUndoFunc` registers for a member: its `UndoDataList`. -/
def undoMember (w : CCacheWrapper Key Val) (p : PrefixType) (dbOpLogs : List CDbOpLog) :
    Option (CCacheWrapper Key Val) :=
  if p.isSimple then
    ((w.simple p).undoDataList dbOpLogs).map fun c => w.setSimple p (c :: w.simpleBase p)
  else
    ((w.composite p).undoDataList dbOpLogs).map fun c => w.setComposite p (c :: w.compositeBase p)

/-- The loop of `Execute` over the log map of one transaction: `false` for a prefix that no type or
no member has, `none` when a log does not deserialize. -/
def undoTx (w : CCacheWrapper Key Val) :
    List (Bytes × List CDbOpLog) → Option (Bool × CCacheWrapper Key Val)
  | [] => some (true, w)
  | opLogPair :: rest =>
    let prefixType := parseKeyPrefixType opLogPair.1
    if prefixType = .empty then some (false, w)
    else if prefixType ∉ DomainCache.all.flatMap DomainCache.undoable then some (false, w)
    else (undoMember w prefixType opLogPair.2).bind fun w' => undoTx w' rest

/-- The loop of `Execute` over the transactions, given in the order it visits them. -/
def undoTxs (w : CCacheWrapper Key Val) : List IneryTxUndo → Option (Bool × CCacheWrapper Key Val)
  | [] => some (true, w)
  | txUndo :: rest =>
    match undoTx w txUndo.dbOpLogMap.entries with
    | some (true, w') => undoTxs w' rest
    | r => r

/-- `IneryBlockUndoExecutor::Execute`. -/
def execute (w : CCacheWrapper Key Val) (blockUndo : IneryBlockUndo) :
    Option (Bool × CCacheWrapper Key Val) :=
  undoTxs w blockUndo.reverse

end CCacheWrapper

/-! ## Replaying the log of one member -/

section Replay

variable {K V : Type} [LinearOrder K] [Serial K] [LawfulSerial K] [Serial V] [LawfulSerial V] [DbUtil V]

/-- The log of writes to a composite cache. -/
def compositeLog (e : K × V) : CDbOpLog := ⟨ser e.1, ser e.2⟩

/-- The log of a write to a simple cache. -/
def singleLog (v : V) : CDbOpLog := ⟨[], ser v⟩

omit [LinearOrder K] [DbUtil V] in
theorem compositeLog_injective : Function.Injective (compositeLog (K := K) (V := V)) := fun _ _ h =>
  Prod.ext (ser_injective (congrArg CDbOpLog.key h)) (ser_injective (congrArg CDbOpLog.value h))

omit [DbUtil V] in
theorem singleLog_injective : Function.Injective (singleLog (V := V)) := fun _ _ h =>
  ser_injective (congrArg CDbOpLog.value h)

omit [LawfulSerial K] [LawfulSerial V] [DbUtil V] in
theorem undoDataList_append_single (c : IneryCompositeKVCache K V) (l : List CDbOpLog) (x : CDbOpLog) :
    c.undoDataList (l ++ [x]) = (c.undoData x).bind fun c' => c'.undoDataList l := by
  simp [IneryCompositeKVCache.undoDataList]

/-- **Replaying a log** puts its old values back, the last one first. -/
theorem view_undoDataList (acc : CDBAccess) (p : PrefixType) (s : CacheStack K V) (L : List (K × V))
    (c : IneryCompositeKVCache K V) : ∃ c', c.undoDataList (L.map compositeLog) = some c' ∧
      CacheStack.view acc p (c' :: s) =
        restore (L.map fun e => (e.1, live (some e.2))) (CacheStack.view acc p (c :: s)) := by
  induction L using List.reverseRecOn generalizing c with
  | nil => exact ⟨c, rfl, rfl⟩
  | append_singleton L e ih =>
    have hundo : c.undoData (compositeLog e) = some (c.setDataToSelf e.1 e.2) := by
      simp [IneryCompositeKVCache.undoData, compositeLog, LawfulSerial.unser_ser]
    have hview : CacheStack.view acc p (c.setDataToSelf e.1 e.2 :: s) =
        Function.update (CacheStack.view acc p (c :: s)) e.1 (live (some e.2)) := by
      funext k
      rw [CacheStack.view, CacheStack.find_cons, IneryCompositeKVCache.setDataToSelf_mapData,
        SortedMap.find?_insert_eq_update, override_update]
      by_cases h : k = e.1
      · rw [h, Function.update_self, Function.update_self]
      · rw [Function.update_of_ne h, Function.update_of_ne h]
        rfl
    obtain ⟨c', hc', hv⟩ := ih (c.setDataToSelf e.1 e.2)
    refine ⟨c', ?_, ?_⟩
    · rw [List.map_append, List.map_singleton, undoDataList_append_single, hundo]
      exact hc'
    · rw [hv, hview, List.map_append, restore_append]
      rfl

theorem view_undoDataList_single (acc : CDBAccess) (p : PrefixType) (s : SimpleStack V) (L : List V)
    (c : InerySimpleKVCache V) : ∃ c', c.undoDataList (L.map singleLog) = some c' ∧
      (fun _ : Unit => SimpleStack.view acc p (c' :: s)) =
        restore (L.map fun v => ((), live (some v))) fun _ => SimpleStack.view acc p (c :: s) := by
  induction L using List.reverseRecOn generalizing c with
  | nil => exact ⟨c, rfl, rfl⟩
  | append_singleton L v ih =>
    obtain ⟨c', hc', hv⟩ := ih ⟨some v⟩
    refine ⟨c', ?_, ?_⟩
    · rw [← hc']
      simp [InerySimpleKVCache.undoDataList, InerySimpleKVCache.undoData, singleLog,
        LawfulSerial.unser_ser]
    · rw [hv, List.map_append, restore_append]
      rfl

end Replay

/-! ## The log of a transaction -/

namespace CCacheWrapper

section Log

variable {Key Val : PrefixType → Type} [∀ p, LinearOrder (Key p)] [∀ p, Serial (Key p)]
  [∀ p, Serial (Val p)] [∀ p, DbUtil (Val p)]

/-- Every member has the same view in `w` and `w'`. -/
def SameViews (w w' : CCacheWrapper Key Val) : Prop :=
  ∀ p ∈ members, (p.isSimple = false → w'.view p = w.view p) ∧
    (p.isSimple = true → w'.singleView p = w.singleView p)

/-- Putting the values of the log `m` back leads from the views of `w` to those of `w₀`. -/
structure TxUndoes (m : CDBOpLogMap) (w₀ w : CCacheWrapper Key Val) : Prop where
  keys : ∀ e ∈ m.entries, ∃ p ∈ members, e.1 = getKeyPrefix p
  composite : ∀ p ∈ members, p.isSimple = false → ∃ L : List (Key p × Val p),
    m.logs p = L.map compositeLog ∧
      restore (L.map fun e => (e.1, live (some e.2))) (w.view p) = w₀.view p
  simple : ∀ p ∈ members, p.isSimple = true → ∃ L : List (Val p),
    m.logs p = L.map singleLog ∧
      restore (L.map fun v => ((), live (some v))) (fun _ => w.singleView p) =
        fun _ => w₀.singleView p

variable {w₀ w w' : CCacheWrapper Key Val} {m : CDBOpLogMap} {p : PrefixType}

theorem txUndoes_empty (w : CCacheWrapper Key Val) : TxUndoes ∅ w w where
  keys := nofun
  composite _ _ _ := ⟨[], rfl, rfl⟩
  simple _ _ _ := ⟨[], rfl, rfl⟩

theorem TxUndoes.congr (h : TxUndoes m w₀ w) (hw : SameViews w w') : TxUndoes m w₀ w' where
  keys := h.keys
  composite p hp hs := by
    rw [(hw p hp).1 hs]
    exact h.composite p hp hs
  simple p hp hs := by
    rw [(hw p hp).2 hs]
    exact h.simple p hp hs

theorem keys_addOpLog (h : ∀ e ∈ m.entries, ∃ p ∈ members, e.1 = getKeyPrefix p) (hp : p ∈ members)
    (l : CDbOpLog) : ∀ e ∈ (m.addOpLog p l).entries, ∃ p ∈ members, e.1 = getKeyPrefix p := by
  intro e he
  rcases SortedMap.mem_insertEntry he with rfl | he
  · exact ⟨p, hp, rfl⟩
  · exact h e he

theorem TxUndoes.write (h : TxUndoes m w₀ w) (hp : p ∈ members) (hs : p.isSimple = false)
    {key : Key p} {old : Val p} {a : Option (Val p)} (hold : live (some old) = w.view p key)
    (hview : w'.view p = Function.update (w.view p) key a)
    (hrest : ∀ q, q ≠ p → AgreeAt q w w') :
    TxUndoes (m.addOpLog p (compositeLog (key, old))) w₀ w' where
  keys := keys_addOpLog h.keys hp _
  composite q hq hqs := by
    by_cases hqp : q = p
    · subst hqp
      obtain ⟨L, hL, hr⟩ := h.composite q hq hqs
      refine ⟨L ++ [(key, old)], ?_, ?_⟩
      · rw [CDBOpLogMap.logs_addOpLog_self, hL, List.map_append]
        rfl
      · rw [List.map_append, hview, ← hr, List.map_singleton, hold, restore_append_single]
    · rw [CDBOpLogMap.logs_addOpLog_of_ne _ (members_inUse p hp) (members_inUse q hq) hqp,
        (hrest q hqp).view]
      exact h.composite q hq hqs
  simple q hq hqs := by
    have hqp : q ≠ p := fun e => by simp [e, hs] at hqs
    rw [CDBOpLogMap.logs_addOpLog_of_ne _ (members_inUse p hp) (members_inUse q hq) hqp,
      (hrest q hqp).singleView]
    exact h.simple q hq hqs

theorem TxUndoes.writeSingle (h : TxUndoes m w₀ w) (hp : p ∈ members) (hs : p.isSimple = true)
    {old : Val p} (hold : live (some old) = w.singleView p) (hrest : ∀ q, q ≠ p → AgreeAt q w w') :
    TxUndoes (m.addOpLog p (singleLog old)) w₀ w' where
  keys := keys_addOpLog h.keys hp _
  composite q hq hqs := by
    have hqp : q ≠ p := fun e => by simp [e, hs] at hqs
    rw [CDBOpLogMap.logs_addOpLog_of_ne _ (members_inUse p hp) (members_inUse q hq) hqp,
      (hrest q hqp).view]
    exact h.composite q hq hqs
  simple q hq hqs := by
    by_cases hqp : q = p
    · subst hqp
      obtain ⟨L, hL, hr⟩ := h.simple q hq hqs
      refine ⟨L ++ [old], ?_, ?_⟩
      · rw [CDBOpLogMap.logs_addOpLog_self, hL, List.map_append]
        rfl
      · rw [List.map_append, restore_append, ← hr, List.map_singleton, hold]
        rfl
    · rw [CDBOpLogMap.logs_addOpLog_of_ne _ (members_inUse p hp) (members_inUse q hq) hqp,
        (hrest q hqp).singleView]
      exact h.simple q hq hqs

end Log

/-! ## Running the transactions -/

section Run

variable {Key Val : PrefixType → Type} [∀ p, LinearOrder (Key p)] [∀ p, Serial (Key p)]
  [∀ p, DbUtil (Key p)] [∀ p, Serial (Val p)] [∀ p, DbUtil (Val p)]

/-- What holds between the operations of a transaction that began at `w₀`: every member logs, and
the log leads back. -/
structure Logging (w₀ w : CCacheWrapper Key Val) : Prop where
  attached : ∀ p ∈ members, w.pDbOpLogMap p = true
  undoes : TxUndoes w.dbOpLogMap w₀ w

variable {w₀ w w' : CCacheWrapper Key Val} {p : PrefixType}

omit [∀ p, DbUtil (Key p)] [∀ p, Serial (Val p)] [∀ p, DbUtil (Val p)] [∀ p, Serial (Key p)] in
theorem memberLog_of_attached (h : w.pDbOpLogMap p = true) : w.memberLog p = some w.dbOpLogMap := by
  simp [memberLog, h]

omit [∀ p, DbUtil (Key p)] in
theorem view_setComposite (w : CCacheWrapper Key Val) (c : IneryCompositeKVCache (Key p) (Val p))
    (s : CacheStack (Key p) (Val p)) :
    (w.setComposite p (c :: s)).view p = CacheStack.view (w.dbAccess p) p (c :: s) := by
  simp [CCacheWrapper.view, setComposite, compositeStack, dbAccess]

omit [∀ p, DbUtil (Key p)] [∀ p, Serial (Key p)] in
theorem singleView_setSimple (w : CCacheWrapper Key Val) (c : InerySimpleKVCache (Val p))
    (s : SimpleStack (Val p)) :
    (w.setSimple p (c :: s)).singleView p = SimpleStack.view (w.dbAccess p) p (c :: s) := by
  simp [CCacheWrapper.singleView, setSimple, simpleStack, dbAccess]

omit [∀ p, DbUtil (Key p)] in
theorem sameViews_setComposite (hp : p.isSimple = false) {c : IneryCompositeKVCache (Key p) (Val p)}
    {s : CacheStack (Key p) (Val p)} (hview : CacheStack.view (w.dbAccess p) p (c :: s) = w.view p) :
    SameViews w (w.setComposite p (c :: s)) := by
  refine fun q _ => ⟨fun hq => ?_, fun hq => ?_⟩
  · by_cases hqp : q = p
    · subst hqp
      rw [view_setComposite, hview]
    · exact (agreeAt_setComposite hqp _).view
  · exact (agreeAt_setComposite (fun e => by simp [e, hp] at hq) _).singleView

omit [∀ p, DbUtil (Key p)] in
theorem sameViews_setSimple (hp : p.isSimple = true) {c : InerySimpleKVCache (Val p)}
    {s : SimpleStack (Val p)} (hview : SimpleStack.view (w.dbAccess p) p (c :: s) = w.singleView p) :
    SameViews w (w.setSimple p (c :: s)) := by
  refine fun q _ => ⟨fun hq => ?_, fun hq => ?_⟩
  · exact (agreeAt_setSimple (fun e => by simp [e, hp] at hq) _).view
  · by_cases hqp : q = p
    · subst hqp
      rw [singleView_setSimple, hview]
    · exact (agreeAt_setSimple hqp _).singleView

omit [∀ p, DbUtil (Key p)] [∀ p, DbUtil (Val p)] in
theorem agreeAt_storeLog (w : CCacheWrapper Key Val) (q : PrefixType) (log : Option CDBOpLogMap) :
    AgreeAt q w (w.storeLog log) := by
  cases log <;> exact ⟨rfl, rfl, rfl, rfl⟩

omit [∀ p, DbUtil (Key p)] in
theorem Logging.read (h : Logging w₀ w) (hp : p.isSimple = false)
    {c : IneryCompositeKVCache (Key p) (Val p)} {s : CacheStack (Key p) (Val p)}
    (hview : CacheStack.view (w.dbAccess p) p (c :: s) = w.view p) :
    Logging w₀ (w.setComposite p (c :: s)) :=
  ⟨h.attached, h.undoes.congr (sameViews_setComposite hp hview)⟩

omit [∀ p, DbUtil (Key p)] in
theorem Logging.readSingle (h : Logging w₀ w) (hp : p.isSimple = true) {c : InerySimpleKVCache (Val p)}
    {s : SimpleStack (Val p)} (hview : SimpleStack.view (w.dbAccess p) p (c :: s) = w.singleView p) :
    Logging w₀ (w.setSimple p (c :: s)) :=
  ⟨h.attached, h.undoes.congr (sameViews_setSimple hp hview)⟩

omit [∀ p, DbUtil (Key p)] in
theorem Logging.write (h : Logging w₀ w) (hp : p ∈ members) (hs : p.isSimple = false)
    {c : IneryCompositeKVCache (Key p) (Val p)} {s : CacheStack (Key p) (Val p)} {key : Key p}
    {old : Val p} {a : Option (Val p)} (hold : live (some old) = w.view p key)
    (hview : CacheStack.view (w.dbAccess p) p (c :: s) = Function.update (w.view p) key a) :
    Logging w₀ ((w.setComposite p (c :: s)).storeLog (addOpLog (w.memberLog p) p (ser key) old)) := by
  rw [memberLog_of_attached (h.attached p hp)]
  exact ⟨h.attached, h.undoes.write hp hs hold ((view_setComposite w c s).trans hview)
    fun q hq => (agreeAt_setComposite hq (c :: s)).trans (agreeAt_storeLog _ q _)⟩

omit [∀ p, DbUtil (Key p)] in
theorem Logging.writeSingle (h : Logging w₀ w) (hp : p ∈ members) (hs : p.isSimple = true)
    {s : SimpleStack (Val p)} {old : Val p} (hold : live (some old) = w.singleView p) :
    Logging w₀ ((w.setSimple p s).storeLog (SimpleStack.addOpLog (w.memberLog p) p old)) := by
  rw [memberLog_of_attached (h.attached p hp)]
  have hrest := fun q hq => (agreeAt_setSimple (w := w) (p := p) (q := q) hq s).trans
    (agreeAt_storeLog _ q (SimpleStack.addOpLog (some w.dbOpLogMap) p old))
  cases s <;> exact ⟨h.attached, h.undoes.writeSingle hp hs hold hrest⟩

omit [∀ p, Serial (Key p)] [∀ p, DbUtil (Key p)] [∀ p, Serial (Val p)] [∀ p, DbUtil (Val p)] in
theorem storeLog_memberLog (w : CCacheWrapper Key Val) (p : PrefixType) :
    w.storeLog (w.memberLog p) = w := by
  unfold memberLog
  split_ifs <;> rfl

omit [∀ p, Serial (Key p)] [∀ p, DbUtil (Key p)] [∀ p, Serial (Val p)] [∀ p, DbUtil (Val p)] in
@[simp] theorem storeLog_db (log : Option CDBOpLogMap) : (w.storeLog log).db = w.db := by
  cases log <;> rfl

variable [∀ p, LawfulDbUtil (Val p)]

omit [∀ p, DbUtil (Key p)] [∀ p, LawfulDbUtil (Val p)] in
theorem Logging.unchanged (h : Logging w₀ w) (hs : p.isSimple = false) :
    Logging w₀ ((w.setComposite p (w.compositeStack p)).storeLog (w.memberLog p)) := by
  rw [show w.memberLog p = (w.setComposite p (w.compositeStack p)).memberLog p from rfl,
    storeLog_memberLog]
  exact h.read hs rfl

omit [∀ p, LawfulDbUtil (Val p)] in
theorem step_getData (h : Logging w₀ w) (hp : p.isSimple = false) (key : Key p) :
    Logging w₀ (w.setComposite p (CacheStack.getData (w.dbAccess p) p (w.compositeStack p) key).1) := by
  obtain ⟨c, s, hcons, hview⟩ := CacheStack.getData_cons (w.dbAccess p) p (w.composite p)
    (w.compositeBase p) key
  rw [compositeStack, hcons]
  exact h.read hp hview

theorem step_setData (h : Logging w₀ w) (hp : p ∈ members) (hs : p.isSimple = false) (key : Key p)
    (value : Val p) {r : CacheStack (Key p) (Val p) × Bool × Option CDBOpLogMap}
    (hr : CacheStack.setData (w.dbAccess p) p (w.memberLog p) (w.compositeStack p) key value = r) :
    Logging w₀ ((w.setComposite p r.1).storeLog r.2.2) := by
  cases hkey : isEmpty key with
  | true =>
    simp only [CacheStack.setData, hkey, if_true] at hr
    subst hr
    exact h.unchanged hs
  | false =>
    obtain ⟨c₁, c₂, s', -, -, hset⟩ := CacheStack.setData_cons (w.dbAccess p) p hkey (w.memberLog p)
      (w.composite p) (w.compositeBase p) value
    have hview := CacheStack.view_setData (w.dbAccess p) p hkey (w.memberLog p) (w.composite p)
      (w.compositeBase p) value
    rw [compositeStack, hset] at hr
    subst hr
    rw [hset] at hview
    refine h.write hp hs ?_ hview
    rw [CCacheWrapper.view, CacheStack.view, compositeStack]
    cases CacheStack.find (w.dbAccess p) p (w.composite p :: w.compositeBase p) key with
    | none => exact live_makeEmptyValue
    | some old => rfl

theorem step_eraseData (h : Logging w₀ w) (hp : p ∈ members) (hs : p.isSimple = false) (key : Key p)
    {r : CacheStack (Key p) (Val p) × Bool × Option CDBOpLogMap}
    (hr : CacheStack.eraseData (w.dbAccess p) p (w.memberLog p) (w.compositeStack p) key = r) :
    Logging w₀ ((w.setComposite p r.1).storeLog r.2.2) := by
  cases hkey : isEmpty key with
  | true =>
    simp only [CacheStack.eraseData, hkey, if_true] at hr
    subst hr
    exact h.unchanged hs
  | false =>
    have hview := CacheStack.view_eraseData (w.dbAccess p) p hkey (w.memberLog p) (w.composite p)
      (w.compositeBase p)
    rw [compositeStack] at hr
    obtain ⟨-, her⟩ | ⟨old, c₁, c₂, s', hold, -, -, her⟩ := CacheStack.eraseData_cons (w.dbAccess p) p
      hkey (w.memberLog p) (w.composite p) (w.compositeBase p)
    · obtain ⟨c, s, hcons, hget⟩ := CacheStack.getDataIt_cons (w.dbAccess p) p (w.composite p)
        (w.compositeBase p) key
      rw [her, hcons] at hr
      subst hr
      rw [show w.memberLog p = (w.setComposite p (c :: s)).memberLog p from rfl, storeLog_memberLog]
      exact h.read hs hget
    · rw [her] at hr hview
      subst hr
      refine h.write hp hs ?_ hview
      obtain ⟨-, hlive⟩ := live_eq_some_iff.mp hold
      rw [live_of_not_isEmpty hlive]
      exact hold.symm

omit [∀ p, DbUtil (Key p)] [∀ p, LawfulDbUtil (Val p)] in
theorem step_getSingle (h : Logging w₀ w) (hs : p.isSimple = true)
    {r : SimpleStack (Val p) × Option (Val p)}
    (hr : SimpleStack.getDataPtr (w.dbAccess p) p (w.simpleStack p) = some r) :
    Logging w₀ (w.setSimple p r.1) := by
  have hfind := (SimpleStack.getDataPtr_spec _ p hr).2 0
  obtain ⟨s', rfl, -⟩ := SimpleStack.getDataPtr_cons _ p hr
  exact h.readSingle hs (congrArg live hfind)

omit [∀ p, DbUtil (Key p)] in
theorem step_setSingle (h : Logging w₀ w) (hp : p ∈ members) (hs : p.isSimple = true) {value : Val p}
    {r : SimpleStack (Val p) × Option CDBOpLogMap}
    (hr : SimpleStack.setData (w.dbAccess p) p (w.memberLog p) (w.simpleStack p) value = some r) :
    Logging w₀ ((w.setSimple p r.1).storeLog r.2) := by
  obtain ⟨s₁, log₁⟩ := r
  obtain ⟨hlog, -⟩ := SimpleStack.setData_cons (w.dbAccess p) p hr
  rw [hlog]
  refine h.writeSingle hp hs ?_
  rw [CCacheWrapper.singleView, SimpleStack.view, simpleStack]
  cases SimpleStack.find (w.dbAccess p) p (w.simple p :: w.simpleBase p) with
  | none => exact live_makeEmptyValue
  | some old => rfl

omit [∀ p, DbUtil (Key p)] [∀ p, LawfulDbUtil (Val p)] in
theorem step_eraseSingle (h : Logging w₀ w) (hp : p ∈ members) (hs : p.isSimple = true)
    {r : SimpleStack (Val p) × Option CDBOpLogMap}
    (hr : SimpleStack.eraseData (w.dbAccess p) p (w.memberLog p) (w.simpleStack p) = some r) :
    Logging w₀ ((w.setSimple p r.1).storeLog r.2) := by
  obtain ⟨s₁, log₁⟩ := r
  obtain ⟨c', s', hcons, hfind, hcase⟩ := SimpleStack.eraseData_cons (w.dbAccess p) p hr
  rw [hcons]
  obtain ⟨-, hlog, rfl⟩ | ⟨old, hold, hlog, -⟩ := hcase
  · rw [hlog, show w.memberLog p = (w.setSimple p (_ :: s')).memberLog p from rfl, storeLog_memberLog]
    refine h.readSingle hs (congrArg live ?_)
    have h0 := hfind 0
    rw [List.drop_zero, List.drop_zero] at h0
    rw [SimpleStack.find_cons, h0, simpleStack, SimpleStack.find_cons, Option.or_assoc,
      Option.or_self]
  · rw [hlog]
    refine h.writeSingle hp hs ?_
    obtain ⟨-, hlive⟩ := live_eq_some_iff.mp hold
    rw [live_of_not_isEmpty hlive]
    exact hold.symm

/-- **One operation of a transaction** goes through, and keeps its log. -/
theorem step_logged (hdb : w.Stored) (h : Logging w₀ w) {op : WrapperOp Key Val} (hop : op.Valid) :
    ∃ w', w.step op = some w' ∧ Logging w₀ w' ∧ w'.db = w.db := by
  cases op with
  | getData p key => exact ⟨_, rfl, step_getData h hop.2 key, by simp⟩
  | hasData p key =>
    refine ⟨_, rfl, ?_, by simp⟩
    rw [CacheStack.hasData_fst]
    exact step_getData h hop.2 key
  | setData p key value => exact ⟨_, rfl, step_setData h hop.1 hop.2 key value rfl, by simp⟩
  | eraseData p key => exact ⟨_, rfl, step_eraseData h hop.1 hop.2 key rfl, by simp⟩
  | getSingle p | hasSingle p =>
    obtain ⟨r, hr⟩ := SimpleStack.getDataPtr_isSome _ p (hdb p hop.1 hop.2) (w.simpleStack p)
    refine ⟨w.setSimple p r.1, ?_, step_getSingle h hop.2 hr, by simp⟩
    simp [step, SimpleStack.getData, SimpleStack.hasData, hr]
  | setSingle p value =>
    obtain ⟨r, hr⟩ := SimpleStack.setData_isSome _ p (hdb p hop.1 hop.2) (w.memberLog p)
      (w.simpleStack p) value
    refine ⟨(w.setSimple p r.1).storeLog r.2, ?_, step_setSingle h hop.1 hop.2 hr, by simp⟩
    rw [step, hr]
    rfl
  | eraseSingle p =>
    obtain ⟨r, hr⟩ := SimpleStack.eraseData_isSome _ p (hdb p hop.1 hop.2) (w.memberLog p)
      (w.simpleStack p)
    refine ⟨(w.setSimple p r.1).storeLog r.2, ?_, step_eraseSingle h hop.1 hop.2 hr, by simp⟩
    rw [step, hr]
    rfl

end Run

end CCacheWrapper

end Inery
