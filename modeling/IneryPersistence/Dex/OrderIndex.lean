import IneryPersistence.Dex.Orders

/-!
# The block orders keep step with the active orders

An operation of a transaction writes the same order to both caches of one level, and logs what the level
showed. The level under a cache without entries for what is written is all that such a cache shows.

* `Reads`, `OrderWrites`: what an operation at one level does to the views of all levels;
* `OrderUndoes`, `Chain`: the undo data leads back to maps in step, transaction after transaction;
* `stepOp_logging`, `undoTxs_spec`, `step_stepped`: one operation, one undo, one step of a run;
* **`orders_in_step`**: the block orders of every level are those of its active orders.
-/

namespace Inery

open KV

/-! ## Levels -/

namespace DexOrders

section Levels

variable {Order : Type}

/-- Both caches have `n` levels. -/
structure Built (n : ℕ) (st : DexOrders Order) : Prop where
  active : st.activeOrderCache.length = n
  block : st.blockOrdersCache.length = n

/-- No cache above the level `i` holds an entry for the order, under its id or its key. -/
structure Clear (i : ℕ) (orderId : Uint256) (key : DexBlockOrderKey) (st : DexOrders Order) : Prop where
  active : CacheStack.Clear i [orderId] st.activeOrderCache
  block : CacheStack.Clear i [key] st.blockOrdersCache

/-- The caches above a level, which an operation at that level leaves. -/
structure SameAbove (i : ℕ) (st st' : DexOrders Order) : Prop where
  active : st'.activeOrderCache.take i = st.activeOrderCache.take i
  block : st'.blockOrdersCache.take i = st.blockOrdersCache.take i

variable {st : DexOrders Order} {n i : ℕ}

theorem Built.length_take (hst : st.Built n) (hi : i ≤ n) :
    (st.activeOrderCache.take i).length = i ∧ (st.blockOrdersCache.take i).length = i := by
  rw [List.length_take, List.length_take, hst.active, hst.block]
  exact ⟨Nat.min_eq_left hi, Nat.min_eq_left hi⟩

theorem level_putBack (hst : st.Built n) (hi : i ≤ n) (st' : DexOrders Order) :
    (st.putBack i st').level i = st' := by
  obtain ⟨ha, hb⟩ := hst.length_take hi
  simp only [level, putBack]
  rw [List.drop_left' ha, List.drop_left' hb]

theorem putBack_putBack (hst : st.Built n) (hi : i ≤ n) (st' st'' : DexOrders Order) :
    (st.putBack i st').putBack i st'' = st.putBack i st'' := by
  obtain ⟨ha, hb⟩ := hst.length_take hi
  simp only [putBack]
  rw [List.take_left' ha, List.take_left' hb]

theorem sameAbove_putBack (hst : st.Built n) (hi : i ≤ n) (st' : DexOrders Order) :
    SameAbove i st (st.putBack i st') :=
  ⟨List.take_left' (hst.length_take hi).1, List.take_left' (hst.length_take hi).2⟩

theorem Clear.congr {st' : DexOrders Order} {orderId : Uint256} {key : DexBlockOrderKey}
    (h : st.Clear i orderId key) (hst : SameAbove i st st') : st'.Clear i orderId key := by
  refine ⟨?_, ?_⟩
  · rw [CacheStack.Clear, hst.active]
    exact h.active
  · rw [CacheStack.Clear, hst.block]
    exact h.block

end Levels

end DexOrders

section Index

variable {Order : Type} [CDEXOrderDetail Order] [Serial CFixedUInt32] [DbUtil CFixedUInt32]
  [Serial Uint256] [DbUtil Uint256] [Serial Order] [DbUtil Order]

namespace DexOrders

/-- The maps that the caches of level `j` stand for. -/
def views (acc : CDBAccess) (st : DexOrders Order) (j : ℕ) : OrderViews Order where
  active := CacheStack.view acc .dexActiveOrder (st.activeOrderCache.drop j)
  block := CacheStack.view acc .dexBlockOrders (st.blockOrdersCache.drop j)

/-- No cache above the level `i` holds an entry for a key of the log. -/
structure ClearOf (i : ℕ) (m : CDBOpLogMap) (st : DexOrders Order) : Prop where
  active : ∀ c ∈ st.activeOrderCache.take i, ∀ orderId : Uint256,
    (∃ l ∈ m.logs .dexActiveOrder, l.key = ser orderId) → c.mapData.find? orderId = none
  block : ∀ c ∈ st.blockOrdersCache.take i, ∀ key : DexBlockOrderKey,
    (∃ l ∈ m.logs .dexBlockOrders, l.key = ser key) → c.mapData.find? key = none

variable {acc : CDBAccess} {st st' st'' : DexOrders Order} {n i : ℕ}

omit [CDEXOrderDetail Order] [DbUtil CFixedUInt32] [DbUtil Uint256] [Serial Order] [DbUtil Order] in
theorem ClearOf.congr {m : CDBOpLogMap} (h : st.ClearOf i m) (hst : SameAbove i st st') : st'.ClearOf i m := by
  refine ⟨?_, ?_⟩
  · rw [hst.active]
    exact h.active
  · rw [hst.block]
    exact h.block

/-! ## Reads and writes -/

/-- A read moves no view and writes no log. -/
structure Reads (acc : CDBAccess) (n i : ℕ) (st st' : DexOrders Order) : Prop where
  built : st'.Built n
  views : ∀ j, st'.views acc j = st.views acc j
  above : SameAbove i st st'
  log : st'.pDbOpLogMap = st.pDbOpLogMap

/-- A write gives the levels from `i` up its values, and leaves the others. -/
structure OrderWrites (acc : CDBAccess) (n i : ℕ) (La : List (Uint256 × Option Order))
    (Lb : List (DexBlockOrderKey × Option Order)) (st st' : DexOrders Order) : Prop where
  built : st'.Built n
  upper : ∀ j ≤ i, st'.views acc j = ⟨restore La (st.views acc j).active, restore Lb (st.views acc j).block⟩
  lower : ∀ j, i < j → st'.views acc j = st.views acc j
  above : SameAbove i st st'

omit [CDEXOrderDetail Order] [DbUtil CFixedUInt32] [DbUtil Uint256] in
theorem orderWrites_of_writes {La : List (Uint256 × Option Order)}
    {Lb : List (DexBlockOrderKey × Option Order)} (hst : st.Built n) (hi : i ≤ n)
    (ha : CacheStack.Writes acc .dexActiveOrder i La st.activeOrderCache (st.putBack i st').activeOrderCache)
    (hb : CacheStack.Writes acc .dexBlockOrders i Lb st.blockOrdersCache (st.putBack i st').blockOrdersCache) :
    OrderWrites acc n i La Lb st (st.putBack i st') where
  built := ⟨ha.length.trans hst.active, hb.length.trans hst.block⟩
  upper j hj := by rw [views, ha.upper j hj, hb.upper j hj, views]
  lower j hj := by rw [views, ha.lower j hj, hb.lower j hj, views]
  above := sameAbove_putBack hst hi st'

/-- The log of two writes, of an id and then of a key. -/
def addOrderLogs (log : Option CDBOpLogMap) (orderId : Uint256) (key : DexBlockOrderKey)
    (old old' : Order) : Option CDBOpLogMap :=
  addOpLog (addOpLog log .dexActiveOrder (ser orderId) old) .dexBlockOrders (ser key) old'

section Specs

variable {orderId : Uint256} (hid : isEmpty orderId = false)

include hid

omit [CDEXOrderDetail Order] [DbUtil CFixedUInt32] in
theorem getActiveOrder_fst : ((st.level i).getActiveOrder acc orderId).1 = (st.views acc i).active orderId :=
  CacheStack.getData_snd acc .dexActiveOrder hid _

omit [CDEXOrderDetail Order] [DbUtil CFixedUInt32] in
theorem getActiveOrder_reads (acc : CDBAccess) (hst : st.Built n) (hi : i ≤ n) :
    Reads acc n i st (st.putBack i ((st.level i).getActiveOrder acc orderId).2) := by
  have hlen := CacheStack.length_getData acc .dexActiveOrder (st.activeOrderCache.drop i) orderId
  have hview := CacheStack.view_drop_append acc .dexActiveOrder (st.activeOrderCache.take i)
    (CacheStack.view_getData acc .dexActiveOrder hid (st.activeOrderCache.drop i))
  refine ⟨⟨?_, ?_⟩, fun j => ?_, sameAbove_putBack hst hi _, rfl⟩
  · simp only [putBack, getActiveOrder, level]
    rw [List.length_append, hlen, ← List.length_append, List.take_append_drop, hst.active]
  · simp only [putBack, getActiveOrder, level]
    rw [List.take_append_drop, hst.block]
  · simp only [views, putBack, getActiveOrder, level]
    rw [hview j, List.take_append_drop, List.take_append_drop]

omit [Serial CFixedUInt32] [Serial Uint256] [Serial Order] [DbUtil Order] in
theorem isEmpty_makeBlockOrderKey (order : Order) : isEmpty (makeBlockOrderKey orderId order) = false := by
  rw [makeBlockOrderKey, isEmpty_toLex, isEmpty_toLex, hid, Bool.and_false, Bool.and_false]

variable [LawfulDbUtil Order]

theorem updateActiveOrder_spec (hst : st.Built n) (hi : i < n) {order : Order}
    (horder : isEmpty order = false) (hclear : st.Clear i orderId (makeBlockOrderKey orderId order)) :
    ∃ st' old old', (st.level i).updateActiveOrder acc orderId order = (true, st') ∧
      OrderWrites acc n i [(orderId, some order)] [(makeBlockOrderKey orderId order, some order)] st
        (st.putBack i st') ∧
      live (some old) = (st.views acc i).active orderId ∧
      live (some old') = (st.views acc i).block (makeBlockOrderKey orderId order) ∧
      st'.pDbOpLogMap = addOrderLogs st.pDbOpLogMap orderId (makeBlockOrderKey orderId order) old old' := by
  obtain ⟨t, old, hset, hold, hwa⟩ := CacheStack.writes_setData acc .dexActiveOrder hid
    (hst.active.symm ▸ hi) hclear.active st.pDbOpLogMap order
  obtain ⟨t', old', hset', hold', hwb⟩ := CacheStack.writes_setData acc .dexBlockOrders
    (isEmpty_makeBlockOrderKey hid order) (hst.block.symm ▸ hi) hclear.block
    (addOpLog st.pDbOpLogMap .dexActiveOrder (ser orderId) old) order
  rw [live_of_not_isEmpty horder] at hwa hwb
  refine ⟨⟨t, t', addOrderLogs st.pDbOpLogMap orderId (makeBlockOrderKey orderId order) old old'⟩, old, old',
    ?_, orderWrites_of_writes hst hi.le hwa hwb, hold, hold', rfl⟩
  simp only [updateActiveOrder, setActive, setBlock, level, hset, hset', andThen_true, addOrderLogs]

/-- `EraseActiveOrder` of a stored order writes both caches, and logs the order twice. -/
theorem eraseActiveOrder_spec (hst : st.Built n) (hi : i < n) {order : Order}
    (ha : (st.views acc i).active orderId = some order)
    (hb : (st.views acc i).block (makeBlockOrderKey orderId order) = some order)
    (hclear : st.Clear i orderId (makeBlockOrderKey orderId order)) :
    ∃ st' old old', (st.level i).eraseActiveOrder acc orderId order = (true, st') ∧
      OrderWrites acc n i [(orderId, none)] [(makeBlockOrderKey orderId order, none)] st (st.putBack i st') ∧
      live (some old) = (st.views acc i).active orderId ∧
      live (some old') = (st.views acc i).block (makeBlockOrderKey orderId order) ∧
      st'.pDbOpLogMap = addOrderLogs st.pDbOpLogMap orderId (makeBlockOrderKey orderId order) old old' := by
  obtain ⟨t, log, her, hwa, hlog⟩ := CacheStack.writes_eraseData acc .dexActiveOrder hid
    (hst.active.symm ▸ hi) hclear.active st.pDbOpLogMap
  obtain ⟨t', log', her', hwb, hlog'⟩ := CacheStack.writes_eraseData acc .dexBlockOrders
    (isEmpty_makeBlockOrderKey hid order) (hst.block.symm ▸ hi) hclear.block log
  obtain ⟨hnone, -⟩ | ⟨old, hold, rfl⟩ := hlog
  · exact absurd (hnone.symm.trans ha) nofun
  obtain ⟨hnone, -⟩ | ⟨old', hold', rfl⟩ := hlog'
  · exact absurd (hnone.symm.trans hb) nofun
  refine ⟨⟨t, t', addOrderLogs st.pDbOpLogMap orderId (makeBlockOrderKey orderId order) old old'⟩, old, old',
    ?_, orderWrites_of_writes hst hi.le hwa hwb, hold, hold', rfl⟩
  simp only [eraseActiveOrder, eraseActive, eraseBlock, level, her, her', andThen_true, addOrderLogs]

omit [LawfulDbUtil Order] in
/-- `CreateActiveOrder` reads the id; without a live order it goes on as `UpdateActiveOrder` does. -/
theorem createActiveOrder_eq (acc : CDBAccess) (hst : st.Built n) (hi : i ≤ n) (order : Order) :
    (((st.views acc i).active orderId).isSome → (st.level i).createActiveOrder acc orderId order =
      (false, ((st.level i).getActiveOrder acc orderId).2)) ∧
    ((st.views acc i).active orderId = none → (st.level i).createActiveOrder acc orderId order =
      ((st.putBack i ((st.level i).getActiveOrder acc orderId).2).level i).updateActiveOrder acc orderId
        order) := by
  have hhas : CacheStack.hasData acc .dexActiveOrder (st.level i).activeOrderCache orderId =
      ((CacheStack.getData acc .dexActiveOrder (st.level i).activeOrderCache orderId).1,
        ((st.views acc i).active orderId).isSome) := by
    rw [CacheStack.hasData_eq, CacheStack.getData_snd acc .dexActiveOrder hid]
    rfl
  rw [level_putBack hst hi]
  unfold createActiveOrder
  rw [hhas]
  refine ⟨fun hlive => ?_, fun hnone => ?_⟩
  · rw [hlive]
    rfl
  · rw [hnone]
    rfl

end Specs

/-! ## The log of a transaction -/

/-- The values that a log puts back. -/
def liveLog {K : Type} (L : List (K × Order)) : List (K × Option Order) := L.map fun e => (e.1, live (some e.2))

/-- What a transaction has logged of the two caches, and that every key is logged with its order id. -/
structure OrderLog (m : CDBOpLogMap) (La : List (Uint256 × Order)) (Lb : List (DexBlockOrderKey × Order)) :
    Prop where
  keys : ∀ e ∈ m.entries, e.1 = getKeyPrefix .dexActiveOrder ∨ e.1 = getKeyPrefix .dexBlockOrders
  active : m.logs .dexActiveOrder = La.map compositeLog
  block : m.logs .dexBlockOrders = Lb.map compositeLog
  ids : ∀ key ∈ Lb.map Prod.fst, key.getOrderId ∈ La.map Prod.fst

/-- Putting the values of the log `m` back leads from the maps `w` to `v`. -/
def OrderUndoes (m : CDBOpLogMap) (v w : OrderViews Order) : Prop :=
  ∃ La Lb, OrderLog m La Lb ∧ v = ⟨restore (liveLog La) w.active, restore (liveLog Lb) w.block⟩

omit [CDEXOrderDetail Order] [DbUtil CFixedUInt32] [DbUtil Uint256] in
theorem orderUndoes_empty (v : OrderViews Order) : OrderUndoes ∅ v v :=
  ⟨[], [], ⟨nofun, rfl, rfl, nofun⟩, rfl⟩

omit [CDEXOrderDetail Order] [DbUtil CFixedUInt32] [DbUtil Uint256] in
theorem OrderUndoes.write {m : CDBOpLogMap} {v w : OrderViews Order} (h : OrderUndoes m v w)
    {orderId : Uint256} {key : DexBlockOrderKey} (hkey : key.getOrderId = orderId) {old old' : Order}
    (hold : live (some old) = w.active orderId) (hold' : live (some old') = w.block key)
    (a b : Option Order) :
    ∃ m', addOrderLogs (some m) orderId key old old' = some m' ∧
      OrderUndoes m' v ⟨Function.update w.active orderId a, Function.update w.block key b⟩ := by
  obtain ⟨La, Lb, hlog, rfl⟩ := h
  have hA : PrefixType.dexActiveOrder.InUse := by decide
  have hB : PrefixType.dexBlockOrders.InUse := by decide
  refine ⟨_, rfl, La ++ [(orderId, old)], Lb ++ [(key, old')], ⟨fun e he => ?_, ?_, ?_, ?_⟩, ?_⟩
  · rcases SortedMap.mem_insertEntry he with rfl | he
    · exact .inr rfl
    · rcases SortedMap.mem_insertEntry he with rfl | he
      · exact .inl rfl
      · exact hlog.keys e he
  · rw [CDBOpLogMap.logs_addOpLog_of_ne _ hB hA (by decide), CDBOpLogMap.logs_addOpLog_self, hlog.active,
      List.map_append]
    rfl
  · rw [CDBOpLogMap.logs_addOpLog_self, CDBOpLogMap.logs_addOpLog_of_ne _ hA hB (by decide), hlog.block,
      List.map_append]
    rfl
  · intro key' hkey'
    rw [List.map_append, List.mem_append] at hkey' ⊢
    rcases hkey' with hmem | hmem
    · exact .inl (hlog.ids key' hmem)
    · rw [List.mem_singleton.mp hmem]
      exact .inr (List.mem_singleton.mpr hkey)
  · simp only [liveLog, List.map_append, List.map_singleton, hold, hold', restore_append_single]

/-- The undo data of executed transactions leads back, from maps in step to maps in step. -/
def Chain : OrderViews Order → List CDBOpLogMap → Prop
  | _, [] => True
  | w, m :: undos => ∃ v : OrderViews Order, v.InStep ∧ OrderUndoes m v w ∧ Chain v undos

/-! ## Operations -/

/-- What the operations of a run are: they name ids and orders that are not empty, an update keeps the height
and the type of the order, and an erasure is given the order; no cache above holds an entry for what is
written. -/
def OpOk (acc : CDBAccess) (i : ℕ) (st : DexOrders Order) : DexOrderOp Order → Prop
  | .get orderId => isEmpty orderId = false
  | .create orderId order => isEmpty orderId = false ∧ isEmpty order = false ∧
      (((st.level i).getActiveOrder acc orderId).1 = none →
        st.Clear i orderId (makeBlockOrderKey orderId order))
  | .update orderId order => isEmpty orderId = false ∧ isEmpty order = false ∧
      (∃ old, ((st.level i).getActiveOrder acc orderId).1 = some old ∧
        CDEXOrderDetail.height old = CDEXOrderDetail.height order ∧
          CDEXOrderDetail.generateType old = CDEXOrderDetail.generateType order) ∧
      st.Clear i orderId (makeBlockOrderKey orderId order)
  | .erase orderId order => isEmpty orderId = false ∧
      ((st.level i).getActiveOrder acc orderId).1 = some order ∧
      st.Clear i orderId (makeBlockOrderKey orderId order)

/-- What holds between the operations of a transaction at level `i` that began at the views `v`. -/
structure Logging (acc : CDBAccess) (n : ℕ) (v : OrderViews Order) (st : DexOrders Order) : Prop where
  built : st.Built n
  inStep : ∀ j, (st.views acc j).InStep
  log : ∃ m, st.pDbOpLogMap = some m ∧ OrderUndoes m v (st.views acc 0)

variable {v : OrderViews Order}

omit [DbUtil CFixedUInt32] [DbUtil Uint256] in
theorem Logging.read (h : Logging acc n v st) (hst : Reads acc n i st st') : Logging acc n v st' where
  built := hst.built
  inStep j := by
    rw [hst.views]
    exact h.inStep j
  log := by
    rw [hst.log, hst.views]
    exact h.log

omit [CDEXOrderDetail Order] [DbUtil CFixedUInt32] [DbUtil Uint256] in
theorem views_of_clear (acc : CDBAccess) {orderId : Uint256} {key : DexBlockOrderKey}
    (hst : st.Built n) (hi : i ≤ n) (h : st.Clear i orderId key) {j : ℕ} (hj : j ≤ i) :
    (st.views acc j).active orderId = (st.views acc i).active orderId ∧
      (st.views acc j).block key = (st.views acc i).block key :=
  ⟨CacheStack.view_drop_of_clear acc _ (hst.active.symm ▸ hi) hj
      fun c hc => h.active c hc orderId (List.mem_singleton_self orderId),
    CacheStack.view_drop_of_clear acc _ (hst.block.symm ▸ hi) hj
      fun c hc => h.block c hc key (List.mem_singleton_self key)⟩

omit [DbUtil CFixedUInt32] [DbUtil Uint256] in
theorem Logging.write (h : Logging acc n v st) (hi : i ≤ n) {orderId : Uint256} {key : DexBlockOrderKey}
    (hkey : key.getOrderId = orderId) (hclear : st.Clear i orderId key) {value : Option Order}
    (hvalue : ∀ order, value = some order → makeBlockOrderKey orderId order = key)
    (hactive : ∀ order, (st.views acc i).active orderId = some order → makeBlockOrderKey orderId order = key)
    {old old' : Order} (hold : live (some old) = (st.views acc i).active orderId)
    (hold' : live (some old') = (st.views acc i).block key)
    (hst : OrderWrites acc n i [(orderId, value)] [(key, value)] st st')
    (hlog : st'.pDbOpLogMap = addOrderLogs st.pDbOpLogMap orderId key old old') : Logging acc n v st' where
  built := hst.built
  inStep j := by
    rcases Nat.lt_or_ge i j with hij | hij
    · rw [hst.lower j hij]
      exact h.inStep j
    · rw [hst.upper j hij]
      refine OrderViews.inStep_write (h.inStep j) hkey hvalue fun order horder => ?_
      rw [(views_of_clear acc h.built hi hclear hij).1] at horder
      exact hactive order horder
  log := by
    obtain ⟨m, hm, hundoes⟩ := h.log
    obtain ⟨ha, hb⟩ := views_of_clear acc h.built hi hclear (Nat.zero_le i)
    rw [← ha] at hold
    rw [← hb] at hold'
    obtain ⟨m', hm', hundoes'⟩ := hundoes.write hkey hold hold' value value
    rw [hlog, hm, hst.upper 0 (Nat.zero_le i)]
    exact ⟨m', hm', hundoes'⟩

variable [LawfulDbUtil Order]

/-- **One operation of a transaction** keeps the block orders in step, and logs what it writes. -/
theorem stepOp_logging (hi : i < n) (h : Logging acc n v st) {op : DexOrderOp Order}
    (hop : st.OpOk acc i op) : ∃ st', st.stepOp acc i op = some st' ∧ Logging acc n v st' := by
  cases op with
  | get orderId => exact ⟨_, rfl, h.read (getActiveOrder_reads hop acc h.built hi.le)⟩
  | create orderId order =>
    obtain ⟨hid, horder, hclear⟩ := hop
    rw [getActiveOrder_fst hid] at hclear
    have hread := getActiveOrder_reads hid acc h.built hi.le
    obtain ⟨hlive, hnew⟩ := createActiveOrder_eq hid acc h.built hi.le order
    cases hact : (st.views acc i).active orderId with
    | some old =>
      refine ⟨_, rfl, ?_⟩
      rw [hlive (by rw [hact]; rfl)]
      exact h.read hread
    | none =>
      have hclear := (hclear hact).congr hread.above
      obtain ⟨st', old, old', hupd, hst', hold, hold', hlog⟩ :=
        updateActiveOrder_spec hid hread.built hi horder hclear
      refine ⟨_, rfl, ?_⟩
      rw [hnew hact, hupd, ← putBack_putBack h.built hi.le]
      refine (h.read hread).write hi.le (getOrderId_makeBlockOrderKey orderId order) hclear (fun o ho => ?_)
        (fun o ho => ?_) hold hold' hst' hlog
      · rw [Option.some.inj ho]
      · rw [hread.views, hact] at ho
        cases ho
  | update orderId order =>
    obtain ⟨hid, horder, ⟨old₀, hact, hheight, htype⟩, hclear⟩ := hop
    rw [getActiveOrder_fst hid] at hact
    obtain ⟨st', old, old', hupd, hst', hold, hold', hlog⟩ :=
      updateActiveOrder_spec hid h.built hi horder hclear
    refine ⟨_, rfl, ?_⟩
    rw [hupd]
    refine h.write hi.le (getOrderId_makeBlockOrderKey orderId order) hclear (fun o ho => ?_) (fun o ho => ?_)
      hold hold' hst' hlog
    · rw [Option.some.inj ho]
    · rw [hact] at ho
      rw [← Option.some.inj ho, makeBlockOrderKey, hheight, htype]
      rfl
  | erase orderId order =>
    obtain ⟨hid, hact, hclear⟩ := hop
    rw [getActiveOrder_fst hid] at hact
    have hblock := (h.inStep i orderId (makeBlockOrderKey orderId order) rfl order).mpr ⟨hact, rfl⟩
    obtain ⟨st', old, old', her, hst', hold, hold', hlog⟩ :=
      eraseActiveOrder_spec hid h.built hi hact hblock hclear
    refine ⟨_, rfl, ?_⟩
    rw [her]
    refine h.write hi.le (getOrderId_makeBlockOrderKey orderId order) hclear (fun o ho => by cases ho)
      (fun o ho => ?_) hold hold' hst' hlog
    rw [hact] at ho
    rw [Option.some.inj ho]

/-! ## Undo -/

section Undo

omit [LawfulDbUtil Order] [CDEXOrderDetail Order] [Serial CFixedUInt32] [DbUtil CFixedUInt32] [Serial Uint256]
  [DbUtil Uint256] [DbUtil Order] in
theorem undoStack_nil {K : Type} [LinearOrder K] [Serial K] {s s' : CacheStack K Order}
    {dbOpLogs : List CDbOpLog} (h : undoStack s dbOpLogs = some s') : undoStack s' [] = some s' := by
  cases s with
  | nil => cases h
  | cons c pBase =>
    obtain ⟨c', -, rfl⟩ := Option.map_eq_some_iff.mp h
    rfl

omit [LawfulDbUtil Order] [CDEXOrderDetail Order] [DbUtil CFixedUInt32] [DbUtil Uint256] [DbUtil Order] in
theorem undoTx_entries {l : List (Bytes × List CDbOpLog)} (hl : (l.map Prod.fst).Nodup)
    (hkeys : ∀ e ∈ l, e.1 = getKeyPrefix .dexActiveOrder ∨ e.1 = getKeyPrefix .dexBlockOrders)
    {sa sa' : CacheStack Uint256 Order} {sb sb' : CacheStack DexBlockOrderKey Order}
    (ha : undoStack sa ((lookup (getKeyPrefix .dexActiveOrder) l).getD []) = some sa')
    (hb : undoStack sb ((lookup (getKeyPrefix .dexBlockOrders) l).getD []) = some sb')
    (log : Option CDBOpLogMap) : undoTx ⟨sa, sb, log⟩ l = some (true, ⟨sa', sb', log⟩) := by
  have hne : getKeyPrefix .dexActiveOrder ≠ getKeyPrefix .dexBlockOrders := by decide
  induction l generalizing sa sb with
  | nil =>
    have hnil : ∀ {K : Type} [LinearOrder K] [Serial K] {s s' : CacheStack K Order},
        undoStack s [] = some s' → s = s' := by
      intro K _ _ s s' h
      cases s with
      | nil => cases h
      | cons c pBase => exact Option.some.inj h
    rw [undoTx, hnil ha, hnil hb]
  | cons e l ih =>
    obtain ⟨name, logs⟩ := e
    obtain ⟨hnotin, hnodup⟩ := List.nodup_cons.mp hl
    have hkeys' := fun e he => hkeys e (List.mem_cons_of_mem _ he)
    have hnone : lookup name l = none :=
      lookup_eq_none fun e he heq => hnotin (List.mem_map.mpr ⟨e, he, heq.symm⟩)
    rw [lookup_cons] at ha hb
    rcases hkeys _ List.mem_cons_self with rfl | rfl
    · rw [if_pos rfl, Option.getD_some] at ha
      rw [if_neg hne.symm] at hb
      rw [undoTx, parseKeyPrefixType_getKeyPrefix (by decide)]
      simp only [undoMember, ha, Option.map_some, Option.bind_some]
      refine ih hnodup hkeys' ?_ hb
      rw [hnone]
      exact undoStack_nil ha
    · rw [if_neg hne] at ha
      rw [if_pos rfl, Option.getD_some] at hb
      rw [undoTx, parseKeyPrefixType_getKeyPrefix (by decide)]
      simp only [undoMember, hb, Option.map_some, Option.bind_some]
      refine ih hnodup hkeys' ha ?_
      rw [hnone]
      exact undoStack_nil hb

omit [LawfulDbUtil Order] [CDEXOrderDetail Order] [DbUtil CFixedUInt32] [DbUtil Uint256] [DbUtil Order] in
theorem ClearOf.clear {m : CDBOpLogMap} {La : List (Uint256 × Order)} {Lb : List (DexBlockOrderKey × Order)}
    (h : st.ClearOf i m) (hlog : OrderLog m La Lb) :
    CacheStack.Clear i (La.map Prod.fst) st.activeOrderCache ∧
      CacheStack.Clear i (Lb.map Prod.fst) st.blockOrdersCache := by
  refine ⟨fun c hc orderId hid => h.active c hc orderId ?_, fun c hc key hkey => h.block c hc key ?_⟩
  · obtain ⟨e, he, rfl⟩ := List.mem_map.mp hid
    exact ⟨compositeLog e, hlog.active ▸ List.mem_map_of_mem he, rfl⟩
  · obtain ⟨e, he, rfl⟩ := List.mem_map.mp hkey
    exact ⟨compositeLog e, hlog.block ▸ List.mem_map_of_mem he, rfl⟩

variable [StreamSerial CFixedUInt32] [StreamSerial Uint256] [LawfulSerial Order]

omit [LawfulDbUtil Order] [CDEXOrderDetail Order] [DbUtil CFixedUInt32] [DbUtil Uint256] in
theorem undoTx_spec (acc : CDBAccess) (hst : st.Built n) (hi : i < n) {m : CDBOpLogMap}
    {La : List (Uint256 × Order)} {Lb : List (DexBlockOrderKey × Order)} (hlog : OrderLog m La Lb)
    (hclear : st.ClearOf i m) :
    ∃ st', (st.level i).undoTx m.entries = some (true, st') ∧
      OrderWrites acc n i (liveLog La) (liveLog Lb) st (st.putBack i st') := by
  obtain ⟨hca, hcb⟩ := hclear.clear hlog
  obtain ⟨c, c', bs, hdrop, hundo, hwa⟩ := CacheStack.writes_undoDataList acc
    .dexActiveOrder (hst.active.symm ▸ hi) La hca
  obtain ⟨d, d', bs', hdrop', hundo', hwb⟩ := CacheStack.writes_undoDataList acc
    .dexBlockOrders (hst.block.symm ▸ hi) Lb hcb
  have ha : undoStack (st.activeOrderCache.drop i) (m.logs .dexActiveOrder) = some (c' :: bs) := by
    rw [hdrop, hlog.active, undoStack, hundo]
    rfl
  have hb : undoStack (st.blockOrdersCache.drop i) (m.logs .dexBlockOrders) = some (d' :: bs') := by
    rw [hdrop', hlog.block, undoStack, hundo']
    rfl
  exact ⟨⟨c' :: bs, d' :: bs', st.pDbOpLogMap⟩,
    undoTx_entries m.ascending.nodup_keys hlog.keys ha hb st.pDbOpLogMap,
    orderWrites_of_writes hst hi.le hwa hwb⟩

omit [LawfulDbUtil Order] [DbUtil CFixedUInt32] [DbUtil Uint256] in
/-- **The undo of the last transactions** at one level keeps the block orders in step. -/
theorem undoTxs_spec (hi : i < n) (ms undos : List CDBOpLogMap) {st : DexOrders Order} (hst : st.Built n)
    (hstep : ∀ j, (st.views acc j).InStep) (hchain : Chain (st.views acc 0) (ms ++ undos))
    (hclear : ∀ m ∈ ms, st.ClearOf i m) : ∃ st', (st.level i).undoTxs ms = some (true, st') ∧
      (st.putBack i st').Built n ∧ (∀ j, ((st.putBack i st').views acc j).InStep) ∧
        Chain ((st.putBack i st').views acc 0) undos := by
  induction ms generalizing st with
  | nil =>
    have hback : st.putBack i (st.level i) = st := by
      simp only [putBack, level, List.take_append_drop]
    refine ⟨st.level i, rfl, ?_⟩
    rw [hback]
    exact ⟨hst, hstep, hchain⟩
  | cons m ms ih =>
    obtain ⟨v, hv, ⟨La, Lb, hlog, rfl⟩, hchain⟩ := hchain
    obtain ⟨st₁, hundo, hw⟩ := undoTx_spec acc hst hi hlog (hclear m List.mem_cons_self)
    have hkeys : ∀ {K : Type} (L : List (K × Order)), (liveLog L).map Prod.fst = L.map Prod.fst :=
      fun L => List.map_map
    obtain ⟨hca, -⟩ := (hclear m List.mem_cons_self).clear hlog
    have hagree : ∀ j ≤ i, ∀ orderId ∈ (liveLog La).map Prod.fst,
        (st.views acc j).active orderId = (st.views acc 0).active orderId := by
      intro j hj orderId hid
      rw [hkeys] at hid
      have hnone := fun c hc => hca c hc orderId hid
      have hlen : i ≤ st.activeOrderCache.length := hst.active.symm ▸ hi.le
      exact (CacheStack.view_drop_of_clear acc _ hlen hj hnone).trans
        (CacheStack.view_drop_of_clear acc _ hlen (Nat.zero_le i) hnone).symm
    have hstep₁ : ∀ j, ((st.putBack i st₁).views acc j).InStep := by
      intro j
      rcases Nat.lt_or_ge i j with hij | hij
      · rw [hw.lower j hij]
        exact hstep j
      · rw [hw.upper j hij]
        refine OrderViews.inStep_restore (hstep j) (hstep 0) ?_ (hagree j hij) hv
        rw [hkeys, hkeys]
        exact hlog.ids
    rw [← hw.upper 0 (Nat.zero_le i)] at hchain
    obtain ⟨st', hundos, h⟩ := ih hw.built hstep₁ hchain
      fun m hm => (hclear m (List.mem_cons_of_mem _ hm)).congr hw.above
    rw [level_putBack hst hi.le] at hundos
    rw [putBack_putBack hst hi.le] at h
    refine ⟨st', ?_, h⟩
    rw [undoTxs, hundo]
    exact hundos

end Undo

/-! ## Flush -/

variable [StreamSerial CFixedUInt32] [StreamSerial Uint256] [LawfulSerial Order]

omit [LawfulDbUtil Order] [CDEXOrderDetail Order] [DbUtil CFixedUInt32] [DbUtil Uint256]
  [StreamSerial CFixedUInt32] [StreamSerial Uint256] [LawfulSerial Order] in
theorem views_of_ge (hst : st.Built n) {j : ℕ} (hj : n ≤ j) : st.views acc j = st.views acc n := by
  have ha := hst.active
  have hb := hst.block
  simp only [views]
  rw [List.drop_of_length_le (by omega), List.drop_of_length_le (by omega),
    List.drop_of_length_le (l := st.activeOrderCache) (by omega),
    List.drop_of_length_le (l := st.blockOrdersCache) (by omega)]

omit [LawfulDbUtil Order] [CDEXOrderDetail Order] in
theorem views_flush (acc : CDBAccess) (hst : st.Built n) (hi : i < n) {j : ℕ} (hj : j ≤ n) :
    (st.putBack i ((st.level i).flush acc).2).views ((st.level i).flush acc).1 j =
      st.views acc (if j = i + 1 then i else j) := by
  have hA : PrefixType.dexActiveOrder.InUse := by decide
  have hB : PrefixType.dexBlockOrders.InUse := by decide
  have hsame := sameRecords_flush hA hB (by decide) acc (st.activeOrderCache.drop i)
  have hsame' := sameRecords_flush hB hA (by decide)
    (CacheStack.flush acc .dexActiveOrder (st.activeOrderCache.drop i)).1 (st.blockOrdersCache.drop i)
  have ha := CacheStack.view_flush_level (V := Order) acc _ (genDbKey_injective .dexActiveOrder)
    (hst.active.symm ▸ hi) (hst.active.symm ▸ hj)
  have hb := CacheStack.view_flush_level (V := Order)
    (CacheStack.flush acc .dexActiveOrder (st.activeOrderCache.drop i)).1 _
    (genDbKey_injective .dexBlockOrders) (hst.block.symm ▸ hi) (hst.block.symm ▸ hj)
  simp only [views, putBack, flush, level]
  rw [CacheStack.view_of_getData _ _ (hsame'.getData _ _), ha, hb,
    CacheStack.view_of_getData _ _ (hsame.getData _ _)]

omit [LawfulDbUtil Order] [CDEXOrderDetail Order] [DbUtil CFixedUInt32] [DbUtil Uint256]
  [StreamSerial CFixedUInt32] [StreamSerial Uint256] [LawfulSerial Order] in
theorem flush_built (hst : st.Built n) : (st.putBack i ((st.level i).flush acc).2).Built n := by
  refine ⟨?_, ?_⟩
  · simp only [putBack, flush, level]
    rw [List.length_append, CacheStack.length_flush, ← List.length_append, List.take_append_drop, hst.active]
  · simp only [putBack, flush, level]
    rw [List.length_append, CacheStack.length_flush, ← List.length_append, List.take_append_drop, hst.block]

end DexOrders

/-! ## Runs -/

namespace DexLevels

open DexOrders

/-- What the steps of a run are: they name levels that there are, the operations of a transaction meet
`OpOk`, and no cache above an undo holds an entry for what is undone. -/
def StepOk (st : DexLevels Order) : DexStep Order → Prop
  | .tx i ops => i < st.orders.activeOrderCache.length ∧
      AllSteps (stepOp st.acc i) (OpOk st.acc i) st.orders.attachLog ops
  | .flush i => i < st.orders.activeOrderCache.length
  | .blockUndo i n => i < st.orders.activeOrderCache.length ∧ ∀ m ∈ st.undos.take n, st.orders.ClearOf i m

/-- The block orders of every level are those of its active orders, and the undo data leads back. -/
structure Stepped (n : ℕ) (st : DexLevels Order) : Prop where
  built : st.orders.Built n
  inStep : ∀ j, (st.orders.views st.acc j).InStep
  chain : DexOrders.Chain (st.orders.views st.acc 0) st.undos

variable [LawfulDbUtil Order] [StreamSerial CFixedUInt32] [StreamSerial Uint256] [LawfulSerial Order] {n : ℕ}

/-- **One step** keeps the block orders in step, at every level. -/
theorem step_stepped {st : DexLevels Order} {s : DexStep Order} (h : Stepped n st) (hs : st.StepOk s) :
    ∃ st', st.step s = some st' ∧ Stepped n st' := by
  have hlen := h.built.active
  cases s with
  | tx i ops =>
    obtain ⟨hi, hops⟩ := hs
    rw [hlen] at hi
    have hstart : Logging st.acc n (st.orders.views st.acc 0) st.orders.attachLog :=
      ⟨⟨h.built.active, h.built.block⟩, h.inStep, ∅, rfl, orderUndoes_empty _⟩
    obtain ⟨orders, hrun, hlog⟩ := run_exists (stepOp st.acc i)
      (fun _ _ hI hop => stepOp_logging hi hI hop) hstart hops
    obtain ⟨m, hm, hundoes⟩ := hlog.log
    refine ⟨_, by rw [step, hrun]; rfl, ⟨hlog.built.active, hlog.built.block⟩, hlog.inStep, ?_⟩
    dsimp only
    rw [hm]
    exact ⟨_, h.inStep 0, hundoes, h.chain⟩
  | flush i =>
    replace hs : i < n := hlen ▸ hs
    have hviews : ∀ j, ∃ k, (st.orders.putBack i ((st.orders.level i).flush st.acc).2).views
        ((st.orders.level i).flush st.acc).1 j = st.orders.views st.acc k := by
      intro j
      rcases Nat.le_total j n with hj | hj
      · exact ⟨_, views_flush st.acc h.built hs hj⟩
      · exact ⟨_, (views_of_ge (flush_built h.built) hj).trans (views_flush st.acc h.built hs le_rfl)⟩
    refine ⟨_, rfl, flush_built h.built, fun j => ?_, ?_⟩
    · obtain ⟨k, hk⟩ := hviews j
      dsimp only
      rw [hk]
      exact h.inStep k
    · have htop := views_flush st.acc h.built hs (Nat.zero_le n)
      rw [if_neg (by omega)] at htop
      dsimp only
      rw [htop]
      exact h.chain
  | blockUndo i k =>
    obtain ⟨hi, hclear⟩ := hs
    rw [hlen] at hi
    have hchain := h.chain
    rw [← List.take_append_drop k st.undos] at hchain
    obtain ⟨orders, hundo, hbuilt, hstep, hchain⟩ := undoTxs_spec hi _ _ h.built h.inStep hchain hclear
    exact ⟨_, by rw [step, hundo], hbuilt, hstep, hchain⟩

/-- **The block orders are those of the active orders** in every reachable state, at every level and in the
database, and the creation of an order that is live fails and moves nothing. -/
theorem orders_in_step {st : DexLevels Order} (hbuilt : st.orders.Built n)
    (hstart : ∀ j, (st.orders.views st.acc j).InStep) (hundos : st.undos = []) {steps : List (DexStep Order)}
    (hsteps : AllSteps step StepOk st steps) : ∃ st', run step st steps = some st' ∧
      (∀ j, (st'.orders.views st'.acc j).InStep) ∧
      ∀ i < n, ∀ orderId order log, isEmpty orderId = false →
        ((st'.orders.views st'.acc i).active orderId).isSome →
          let caches : DexOrders Order := { st'.orders with pDbOpLogMap := log }
          let r := (caches.level i).createActiveOrder st'.acc orderId order
          r.1 = false ∧ r.2.pDbOpLogMap = log ∧
            ∀ j, (caches.putBack i r.2).views st'.acc j = caches.views st'.acc j := by
  have hchain : DexOrders.Chain (st.orders.views st.acc 0) st.undos := by
    rw [hundos]
    trivial
  obtain ⟨st', hrun, h⟩ := run_exists step (fun _ _ hI hs => step_stepped hI hs)
    (⟨hbuilt, hstart, hchain⟩ : Stepped n st) hsteps
  refine ⟨st', hrun, h.inStep, fun i hi orderId order log hid hlive => ?_⟩
  intro caches r
  have hcaches : caches.Built n := ⟨h.built.active, h.built.block⟩
  have hr : r = (false, ((caches.level i).getActiveOrder st'.acc orderId).2) :=
    (createActiveOrder_eq hid st'.acc hcaches hi.le order).1 hlive
  have hread := getActiveOrder_reads hid st'.acc hcaches hi.le
  rw [hr]
  exact ⟨rfl, rfl, hread.views⟩

end DexLevels

end Index

/-! ## Two runs -/

namespace BigEndianKeys

scoped instance : Serial CFixedUInt32 where
  ser n := bigEndian 4 n.value.toNat
  unser bytes := (readDigits 4 bytes).map fun r => (⟨UInt32.ofNat r.1⟩, r.2)

scoped instance : StreamSerial CFixedUInt32 where
  unser_append n rest := by
    change (readDigits 4 (bigEndian 4 n.value.toNat ++ rest)).map _ = _
    rw [readDigits_bigEndian n.value.toNat_lt]
    simp

scoped instance : DbUtil CFixedUInt32 := ⟨⟨0⟩, fun n => n.value == 0, fun _ => ⟨0⟩⟩

/-- Height, type and amount of a small order. -/
abbrev SmallOrder := Byte ×ₗ Byte ×ₗ Byte

scoped instance : CDEXOrderDetail SmallOrder where
  height order := UInt32.ofNat (get0 order).val
  generateType order := get1 order

/-- Two levels of caches over an empty database. -/
def noOrders : DexLevels SmallOrder :=
  ⟨⟨.dex, ∅⟩, ⟨[⟨∅, false, 0⟩, ⟨∅, false, 0⟩], [⟨∅, false, 0⟩, ⟨∅, false, 0⟩], none⟩, []⟩

theorem noOrders_inStep (j : ℕ) : (noOrders.orders.views noOrders.acc j).InStep := by
  have hview : noOrders.orders.views noOrders.acc j = ⟨fun _ => none, fun _ => none⟩ := by
    match j with
    | 0 | 1 => rfl
    | j + 2 => exact DexOrders.views_of_ge (n := 2) ⟨rfl, rfl⟩ (Nat.le_add_left 2 j)
  rw [hview]
  exact fun orderId key hkey order => ⟨nofun, fun h => by cases h.1⟩

/-- An order is made and flushed, then changed and flushed; the change is undone under the top, where the
order is then erased. -/
theorem orders_in_step_run :
    let order : SmallOrder := toLex (5, toLex (1, 10))
    let changed : SmallOrder := toLex (5, toLex (1, 20))
    ∃ st', run DexLevels.step noOrders [.tx 0 [.create 1 order], .flush 0, .tx 0 [.update 1 changed],
      .flush 0, .blockUndo 1 1, .tx 1 [.erase 1 order]] = some st' ∧
        ∀ j, (st'.orders.views st'.acc j).InStep := by
  intro order changed
  have hsteps : AllSteps DexLevels.step DexLevels.StepOk noOrders [.tx 0 [.create 1 order], .flush 0,
      .tx 0 [.update 1 changed], .flush 0, .blockUndo 1 1, .tx 1 [.erase 1 order]] := by
    refine ⟨⟨by decide, ⟨rfl, rfl, fun _ => ⟨nofun, nofun⟩⟩, fun _ _ => trivial⟩, fun st₁ h₁ => ?_⟩
    obtain rfl := Option.some.inj h₁
    refine ⟨(by decide : 0 < 2), fun st₂ h₂ => ?_⟩
    obtain rfl := Option.some.inj h₂
    refine ⟨⟨by decide +kernel, ⟨rfl, rfl, ⟨order, by decide +kernel, rfl, rfl⟩, nofun, nofun⟩,
      fun _ _ => trivial⟩, fun st₃ h₃ => ?_⟩
    obtain rfl := Option.some.inj h₃
    refine ⟨(by decide : 0 < 2), fun st₄ h₄ => ?_⟩
    obtain rfl := Option.some.inj h₄
    refine ⟨⟨by decide +kernel, fun m _ => ⟨fun c hc orderId _ => ?_, fun c hc key _ => ?_⟩⟩, fun st₅ h₅ => ?_⟩
    · rw [List.mem_singleton.mp hc]
      rfl
    · rw [List.mem_singleton.mp hc]
      rfl
    obtain rfl := Option.some.inj h₅
    refine ⟨⟨by decide +kernel, ⟨rfl, by decide +kernel, fun c hc key _ => ?_, fun c hc key _ => ?_⟩,
      fun _ _ => trivial⟩, fun _ _ => trivial⟩
    · rw [List.mem_singleton.mp hc]
      rfl
    · rw [List.mem_singleton.mp hc]
      rfl
  obtain ⟨st', hrun, hstep, -⟩ := DexLevels.orders_in_step (n := 2) ⟨rfl, rfl⟩ noOrders_inStep rfl hsteps
  exact ⟨st', hrun, hstep⟩

/-- The top cache has copied an order that is then undone below it. -/
theorem undo_below_copy :
    let order : SmallOrder := toLex (5, toLex (1, 10))
    ∃ st', run DexLevels.step noOrders [.tx 0 [.create 1 order], .flush 0, .tx 0 [.create 1 order],
      .blockUndo 1 2] = some st' ∧ (st'.orders.views st'.acc 0).active 1 = some order ∧
        (st'.orders.views st'.acc 0).block (makeBlockOrderKey 1 order) = none :=
  ⟨_, rfl, by decide +kernel, by decide +kernel⟩

end BigEndianKeys

end Inery
