import IneryPersistence.Cache.Levels
import IneryPersistence.Cdp.Keys

/-!
# The orders of the DEX

`CDexDBCache` keeps every active order twice: under its id, and under a key made of the height and the type
that the order itself carries.

* `makeBlockOrderKey`, `createActiveOrder`, `updateActiveOrder`, `eraseActiveOrder`: the writes;
* `flush`, `undoTx`, `undoTxs`: the two caches are flushed and undone one after the other;
* `DexLevels`, `DexStep`, `step`: caches over caches, with the undo data of what was executed;
* `InStep`, **`inStep_write`**, **`inStep_restore`**: the index, and what keeps it.
-/

namespace Inery

open KV

/-- A height whose serialization has a fixed length. -/
structure CFixedUInt32 where
  value : UInt32

instance : LinearOrder CFixedUInt32 :=
  LinearOrder.lift' (fun n => n.value.toNat) fun a b h => by
    cases a
    cases b
    exact congrArg _ (UInt32.toNat_inj.mp h)

/-- What an order is found by: the height of its `tx_cord`, and its `generate_type`. -/
class CDEXOrderDetail (Order : Type) where
  height : Order → UInt32
  generateType : Order → Byte

/-- Height, type and id: the key of `DEXBlockOrdersCache`. -/
abbrev DexBlockOrderKey := CFixedUInt32 ×ₗ Byte ×ₗ Uint256

namespace DexBlockOrderKey

/-- `GetOrderId`. -/
def getOrderId (key : DexBlockOrderKey) : Uint256 := (ofLex (ofLex key).2).2

end DexBlockOrderKey

/-- `MakeBlockOrderKey`. -/
def makeBlockOrderKey {Order : Type} [CDEXOrderDetail Order] (orderid : Uint256) (activeOrder : Order) :
    DexBlockOrderKey :=
  toLex (⟨CDEXOrderDetail.height activeOrder⟩, toLex (CDEXOrderDetail.generateType activeOrder, orderid))

@[simp] theorem getOrderId_makeBlockOrderKey {Order : Type} [CDEXOrderDetail Order] (orderid : Uint256)
    (activeOrder : Order) : (makeBlockOrderKey orderid activeOrder).getOrderId = orderid := rfl

/-- The caches of a `CDexDBCache` that keep orders, and the log they write to. -/
structure DexOrders (Order : Type) where
  activeOrderCache : CacheStack Uint256 Order
  blockOrdersCache : CacheStack DexBlockOrderKey Order
  pDbOpLogMap : Option CDBOpLogMap

namespace DexOrders

variable {Order : Type} [CDEXOrderDetail Order] [Serial CFixedUInt32] [DbUtil CFixedUInt32]
  [Serial Uint256] [DbUtil Uint256] [Serial Order] [DbUtil Order]

section Model

variable (acc : CDBAccess)

/-- `GetActiveOrder`. -/
def getActiveOrder (st : DexOrders Order) (orderId : Uint256) : Option Order × DexOrders Order :=
  let r := CacheStack.getData acc .dexActiveOrder st.activeOrderCache orderId
  (r.2, { st with activeOrderCache := r.1 })

/-- `activeOrderCache.SetData`. -/
def setActive (st : DexOrders Order) (orderId : Uint256) (activeOrder : Order) : Bool × DexOrders Order :=
  let r := CacheStack.setData acc .dexActiveOrder st.pDbOpLogMap st.activeOrderCache orderId activeOrder
  (r.2.1, { st with activeOrderCache := r.1, pDbOpLogMap := r.2.2 })

/-- `blockOrdersCache.SetData`. -/
def setBlock (st : DexOrders Order) (orderId : Uint256) (activeOrder : Order) : Bool × DexOrders Order :=
  let r := CacheStack.setData acc .dexBlockOrders st.pDbOpLogMap st.blockOrdersCache
    (makeBlockOrderKey orderId activeOrder) activeOrder
  (r.2.1, { st with blockOrdersCache := r.1, pDbOpLogMap := r.2.2 })

/-- `activeOrderCache.EraseData`. -/
def eraseActive (st : DexOrders Order) (orderId : Uint256) : Bool × DexOrders Order :=
  let r := CacheStack.eraseData acc .dexActiveOrder st.pDbOpLogMap st.activeOrderCache orderId
  (r.2.1, { st with activeOrderCache := r.1, pDbOpLogMap := r.2.2 })

/-- `blockOrdersCache.EraseData`. -/
def eraseBlock (st : DexOrders Order) (orderId : Uint256) (activeOrder : Order) : Bool × DexOrders Order :=
  let r := CacheStack.eraseData acc .dexBlockOrders st.pDbOpLogMap st.blockOrdersCache
    (makeBlockOrderKey orderId activeOrder)
  (r.2.1, { st with blockOrdersCache := r.1, pDbOpLogMap := r.2.2 })

/-- `UpdateActiveOrder`. -/
def updateActiveOrder (st : DexOrders Order) (orderId : Uint256) (activeOrder : Order) :
    Bool × DexOrders Order :=
  andThen (st.setActive acc orderId activeOrder) fun st => st.setBlock acc orderId activeOrder

/-- `CreateActiveOrder`: a live order is left. -/
def createActiveOrder (st : DexOrders Order) (orderId : Uint256) (activeOrder : Order) :
    Bool × DexOrders Order :=
  let r := CacheStack.hasData acc .dexActiveOrder st.activeOrderCache orderId
  let st := { st with activeOrderCache := r.1 }
  if r.2 then (false, st)
  else andThen (st.setActive acc orderId activeOrder) fun st => st.setBlock acc orderId activeOrder

/-- `EraseActiveOrder`. -/
def eraseActiveOrder (st : DexOrders Order) (orderId : Uint256) (activeOrder : Order) :
    Bool × DexOrders Order :=
  andThen (st.eraseActive acc orderId) fun st => st.eraseBlock acc orderId activeOrder

/-- `Flush`. -/
def flush (st : DexOrders Order) : CDBAccess × DexOrders Order :=
  let r := CacheStack.flush acc .dexActiveOrder st.activeOrderCache
  let r' := CacheStack.flush r.1 .dexBlockOrders st.blockOrdersCache
  (r'.1, { st with activeOrderCache := r.2, blockOrdersCache := r'.2 })

end Model

/-! ## Undo -/

/-- `UndoDataList` on a cache with its bases. -/
def undoStack {K V : Type} [LinearOrder K] [Serial K] [Serial V] (s : CacheStack K V)
    (dbOpLogs : List CDbOpLog) : Option (CacheStack K V) :=
  match s with
  | [] => none
  | c :: pBase => (c.undoDataList dbOpLogs).map fun c => c :: pBase

/-- The functions that `RegisterUndoFunc` registers for the two caches; other members have others. -/
def undoMember (st : DexOrders Order) (prefixType : PrefixType) (dbOpLogs : List CDbOpLog) :
    Option (DexOrders Order) :=
  match prefixType with
  | .dexActiveOrder =>
    (undoStack st.activeOrderCache dbOpLogs).map fun s => { st with activeOrderCache := s }
  | .dexBlockOrders =>
    (undoStack st.blockOrdersCache dbOpLogs).map fun s => { st with blockOrdersCache := s }
  | _ => some st

/-- The loop of `Execute` over the log map of one transaction. -/
def undoTx (st : DexOrders Order) : List (Bytes × List CDbOpLog) → Option (Bool × DexOrders Order)
  | [] => some (true, st)
  | opLogPair :: rest =>
    let prefixType := parseKeyPrefixType opLogPair.1
    if prefixType = .empty then some (false, st)
    else (st.undoMember prefixType opLogPair.2).bind fun st' => undoTx st' rest

/-- The loop of `Execute` over the transactions, given in the order it visits them. -/
def undoTxs (st : DexOrders Order) : List CDBOpLogMap → Option (Bool × DexOrders Order)
  | [] => some (true, st)
  | dbOpLogMap :: rest =>
    match st.undoTx dbOpLogMap.entries with
    | some (true, st') => undoTxs st' rest
    | r => r

/-! ## Levels -/

/-- The `CDexDBCache` that is `i` levels under the top. -/
def level (st : DexOrders Order) (i : ℕ) : DexOrders Order :=
  { st with activeOrderCache := st.activeOrderCache.drop i, blockOrdersCache := st.blockOrdersCache.drop i }

/-- The caches above the level `i`, over what an operation at that level leaves. -/
def putBack (st : DexOrders Order) (i : ℕ) (st' : DexOrders Order) : DexOrders Order :=
  { st' with
    activeOrderCache := st.activeOrderCache.take i ++ st'.activeOrderCache
    blockOrdersCache := st.blockOrdersCache.take i ++ st'.blockOrdersCache }

end DexOrders

/-- An operation of a transaction. -/
inductive DexOrderOp (Order : Type)
  | get (orderId : Uint256)
  | create (orderId : Uint256) (activeOrder : Order)
  | update (orderId : Uint256) (activeOrder : Order)
  | erase (orderId : Uint256) (activeOrder : Order)

/-- Caches over a database, and the undo data of the transactions, that of the last one first. -/
structure DexLevels (Order : Type) where
  acc : CDBAccess
  orders : DexOrders Order
  undos : List CDBOpLogMap

/-- What happens at one level: a transaction under an `IneryTxUndoOpLogger`, a flush, or the undo of a block
that had the last `n` transactions. -/
inductive DexStep (Order : Type)
  | tx (i : ℕ) (ops : List (DexOrderOp Order))
  | flush (i : ℕ)
  | blockUndo (i : ℕ) (n : ℕ)

section Steps

variable {Order : Type} [CDEXOrderDetail Order] [Serial CFixedUInt32] [DbUtil CFixedUInt32]
  [Serial Uint256] [DbUtil Uint256] [Serial Order] [DbUtil Order]

namespace DexOrders

/-- One operation of a transaction at level `i`. -/
def stepOp (acc : CDBAccess) (i : ℕ) (st : DexOrders Order) : DexOrderOp Order → Option (DexOrders Order)
  | .get orderId => some (st.putBack i ((st.level i).getActiveOrder acc orderId).2)
  | .create orderId activeOrder =>
    some (st.putBack i ((st.level i).createActiveOrder acc orderId activeOrder).2)
  | .update orderId activeOrder =>
    some (st.putBack i ((st.level i).updateActiveOrder acc orderId activeOrder).2)
  | .erase orderId activeOrder =>
    some (st.putBack i ((st.level i).eraseActiveOrder acc orderId activeOrder).2)

/-- The caches with an empty log attached. -/
def attachLog (st : DexOrders Order) : DexOrders Order := { st with pDbOpLogMap := some ∅ }

end DexOrders

namespace DexLevels

/-- One step of a run. -/
def step (st : DexLevels Order) : DexStep Order → Option (DexLevels Order)
  | .tx i ops =>
    (run (DexOrders.stepOp st.acc i) st.orders.attachLog ops).map fun orders =>
      { st with
        orders := { orders with pDbOpLogMap := none }
        undos := orders.pDbOpLogMap.getD ∅ :: st.undos }
  | .flush i =>
    let r := (st.orders.level i).flush st.acc
    some { st with acc := r.1, orders := st.orders.putBack i r.2 }
  | .blockUndo i n =>
    match (st.orders.level i).undoTxs (st.undos.take n) with
    | some (true, orders) =>
      some { st with orders := st.orders.putBack i orders, undos := st.undos.drop n }
    | _ => none

end DexLevels

end Steps

/-! ## The index -/

/-- The flat maps of the two caches at one level. -/
structure OrderViews (Order : Type) where
  active : Uint256 → Option Order
  block : DexBlockOrderKey → Option Order

namespace OrderViews

variable {Order : Type} [CDEXOrderDetail Order]

/-- The entries of one order id are in step. -/
def InStepAt (v : OrderViews Order) (orderId : Uint256) : Prop :=
  ∀ key : DexBlockOrderKey, key.getOrderId = orderId → ∀ order, v.block key = some order ↔
    v.active orderId = some order ∧ makeBlockOrderKey orderId order = key

/-- **The block orders are exactly the entries of the active orders.** -/
def InStep (v : OrderViews Order) : Prop := ∀ orderId, v.InStepAt orderId

/-- Two pairs of maps have the same entries for an order id. -/
structure SameAt (v w : OrderViews Order) (orderId : Uint256) : Prop where
  active : v.active orderId = w.active orderId
  block : ∀ key : DexBlockOrderKey, key.getOrderId = orderId → v.block key = w.block key

theorem SameAt.inStepAt {v w : OrderViews Order} {orderId : Uint256} (h : SameAt v w orderId)
    (hw : w.InStepAt orderId) : v.InStepAt orderId := by
  intro key hkey order
  rw [h.block key hkey, h.active]
  exact hw key hkey order

theorem inStep_patch {v w v' : OrderViews Order} (hv : v.InStep) (hw : w.InStep)
    (h : ∀ orderId, SameAt v' v orderId ∨ SameAt v' w orderId) : v'.InStep := by
  intro orderId
  rcases h orderId with h | h
  · exact h.inStepAt (hv orderId)
  · exact h.inStepAt (hw orderId)

theorem InStep.block_eq {v w : OrderViews Order} (hv : v.InStep) (hw : w.InStep) {key : DexBlockOrderKey}
    (h : v.active key.getOrderId = w.active key.getOrderId) : v.block key = w.block key := by
  ext order
  rw [hv _ key rfl order, hw _ key rfl order, h]

/-- **The write of an order**, or its removal, under the key that the order had. -/
theorem inStep_write {v : OrderViews Order} (hv : v.InStep) {orderId : Uint256} {key : DexBlockOrderKey}
    (hkey : key.getOrderId = orderId) {value : Option Order}
    (hvalue : ∀ order, value = some order → makeBlockOrderKey orderId order = key)
    (hold : ∀ order, v.active orderId = some order → makeBlockOrderKey orderId order = key) :
    InStep ⟨Function.update v.active orderId value, Function.update v.block key value⟩ := by
  intro orderId' key' hkey' order
  dsimp only
  by_cases hid : orderId' = orderId
  · subst hid
    rw [Function.update_self]
    by_cases hk : key' = key
    · rw [hk, Function.update_self]
      exact (and_iff_left_of_imp (hvalue order)).symm
    · rw [Function.update_of_ne hk, hv _ key' hkey' order]
      -- no other key of the order id has an entry
      constructor
      · rintro ⟨hact, hmk⟩
        exact absurd (hmk.symm.trans (hold order hact)) hk
      · rintro ⟨hval, hmk⟩
        exact absurd (hmk.symm.trans (hvalue order hval)) hk
  · have hk : key' ≠ key := by
      rintro rfl
      exact hid (hkey'.symm.trans hkey)
    rw [Function.update_of_ne hid, Function.update_of_ne hk]
    exact hv orderId' key' hkey' order

/-- **Values that are put back** lead to maps in step when they did so once, under the same ids. -/
theorem inStep_restore {v w : OrderViews Order} (hv : v.InStep) (hw : w.InStep)
    {La : List (Uint256 × Option Order)} {Lb : List (DexBlockOrderKey × Option Order)}
    (hids : ∀ key ∈ Lb.map Prod.fst, key.getOrderId ∈ La.map Prod.fst)
    (hagree : ∀ orderId ∈ La.map Prod.fst, v.active orderId = w.active orderId)
    (htarget : InStep ⟨restore La w.active, restore Lb w.block⟩) :
    InStep ⟨restore La v.active, restore Lb v.block⟩ := by
  refine inStep_patch hv htarget fun orderId => ?_
  by_cases hid : orderId ∈ La.map Prod.fst
  · refine .inr ⟨restore_of_mem hid _ _, fun key hkey => ?_⟩
    by_cases hk : key ∈ Lb.map Prod.fst
    · exact restore_of_mem hk _ _
    · -- the key was not written, and both maps have the same active order
      have hblock : v.block key = w.block key := hv.block_eq hw (hagree _ (hkey ▸ hid))
      dsimp only
      rw [restore_of_notMem hk, restore_of_notMem hk, hblock]
  · refine .inl ⟨restore_of_notMem hid _, fun key hkey => restore_of_notMem (fun hk => hid ?_) _⟩
    exact hkey ▸ hids key hk

end OrderViews

end Inery
