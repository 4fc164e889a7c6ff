import Mathlib.Order.WithBot
import IneryPersistence.Cache.Refine
import IneryPersistence.Cdp.Keys

/-!
# The operators of the DEX

`CDexDBCache` keeps every operator under its id, and the id of every operator under its owner. The main
operator is built in: it is there before it has a record.

* `DexOperatorDetail`, `dex0`, `DexOperators`: the data;
* `getDexOperator`, `getDexOperatorByOwner`, `hasDexOperatorByOwner`: the reads;
* `createDexOperator`, `updateDexOperator`: the writes;
* `Views`: the flat maps of the two caches; `Views.create`, `Views.update`: what the writes make of them;
* `createDexOperator_spec`, `updateDexOperator_spec`: one lemma for each function says what it does to the maps.
-/

namespace Inery

open KV

/-- Who may open orders; `Dex0` names the one mode. -/
inductive OpenMode
  | PUBLIC
  | other (mode : UInt8)
deriving DecidableEq

/-- An operator, without the set of operators it shares its orders with, which `Dex0` leaves empty. -/
structure DexOperatorDetail where
  ownerRegid : IneryRegID
  feeReceiverRegid : IneryRegID
  name : Bytes
  portalUrl : Bytes
  orderOpenMode : OpenMode
  takerFeeRatio : UInt64
  makerFeeRatio : UInt64
  activated : Bool
deriving DecidableEq

/-- `Dex0`, for the owner that the configuration gives. -/
def dex0 (regid : IneryRegID) : DexOperatorDetail where
  ownerRegid := regid
  feeReceiverRegid := regid
  name := bytesOf "wayki-dex"
  portalUrl := bytesOf "https://dex.waykichain.com"
  orderOpenMode := .PUBLIC
  takerFeeRatio := 40000
  makerFeeRatio := 40000
  activated := true

/-- The caches of a `CDexDBCache` that keep operators, and the log they write to. An id is a key as an
optional value, so that the id 0 is no empty key. -/
structure DexOperators (DexID : Type) [LinearOrder DexID] where
  operatorDetailCache : CacheStack (WithBot DexID) DexOperatorDetail
  operatorOwnerMapCache : CacheStack IneryRegIDKey (Option DexID)
  pDbOpLogMap : Option CDBOpLogMap

instance {DexID : Type} : DbUtil (WithBot DexID) := inferInstanceAs (DbUtil (Option DexID))

namespace DexOperators

variable {DexID : Type} [LinearOrder DexID] [Serial (WithBot DexID)] [Serial DexOperatorDetail]
  [DbUtil DexOperatorDetail] [Serial IneryRegIDKey] [DbUtil IneryRegIDKey] [Serial (Option DexID)]

section Model

variable (acc : CDBAccess) (mainDexId : DexID) (dex0Owner : IneryRegID)

/-- `GetDexOperator`: without a record, the main operator is `Dex0`. -/
def getDexOperator (st : DexOperators DexID) (id : DexID) : Option DexOperatorDetail × DexOperators DexID :=
  let r := CacheStack.getData acc .dexOperatorDetail st.operatorDetailCache (id : WithBot DexID)
  (r.2.or (if id = mainDexId then some (dex0 dex0Owner) else none), { st with operatorDetailCache := r.1 })

/-- `GetDexOperatorByOwner`: the id and the operator. The owner map of a live record has a value. -/
def getDexOperatorByOwner (st : DexOperators DexID) (regid : IneryRegID) :
    Option (DexID × DexOperatorDetail) × DexOperators DexID :=
  let r := CacheStack.getData acc .dexOperatorOwnerMap st.operatorOwnerMapCache ⟨regid⟩
  let st := { st with operatorOwnerMapCache := r.1 }
  match r.2 with
  | some (some id) =>
    let g := st.getDexOperator acc mainDexId dex0Owner id
    (g.1.map fun detail => (id, detail), g.2)
  | some none => (none, st)
  | none =>
    if dex0Owner = regid then
      let g := st.getDexOperator acc mainDexId dex0Owner mainDexId
      ((g.1.filter fun detail => detail.ownerRegid = regid).map fun detail => (mainDexId, detail), g.2)
    else (none, st)

/-- `HasDexOperatorByOwner`. -/
def hasDexOperatorByOwner (st : DexOperators DexID) (regid : IneryRegID) : Bool × DexOperators DexID :=
  let r := CacheStack.hasData acc .dexOperatorOwnerMap st.operatorOwnerMapCache ⟨regid⟩
  let st := { st with operatorOwnerMapCache := r.1 }
  if r.2 then (true, st)
  else if dex0Owner = regid then
    let g := st.getDexOperator acc mainDexId dex0Owner mainDexId
    (g.1.any fun detail => detail.ownerRegid = regid, g.2)
  else (false, st)

/-- `operator_detail_cache.SetData`. -/
def setDetail (st : DexOperators DexID) (id : DexID) (detail : DexOperatorDetail) :
    Bool × DexOperators DexID :=
  let r := CacheStack.setData acc .dexOperatorDetail st.pDbOpLogMap st.operatorDetailCache
    (id : WithBot DexID) detail
  (r.2.1, { st with operatorDetailCache := r.1, pDbOpLogMap := r.2.2 })

/-- `operator_owner_map_cache.SetData`. -/
def setOwner (st : DexOperators DexID) (regid : IneryRegID) (id : DexID) : Bool × DexOperators DexID :=
  let r := CacheStack.setData acc .dexOperatorOwnerMap st.pDbOpLogMap st.operatorOwnerMapCache ⟨regid⟩
    (some id)
  (r.2.1, { st with operatorOwnerMapCache := r.1, pDbOpLogMap := r.2.2 })

/-- `operator_owner_map_cache.EraseData`. -/
def eraseOwner (st : DexOperators DexID) (regid : IneryRegID) : Bool × DexOperators DexID :=
  let r := CacheStack.eraseData acc .dexOperatorOwnerMap st.pDbOpLogMap st.operatorOwnerMapCache ⟨regid⟩
  (r.2.1, { st with operatorOwnerMapCache := r.1, pDbOpLogMap := r.2.2 })

/-- `CreateDexOperator`: neither the id nor the owner may have an operator. -/
def createDexOperator (st : DexOperators DexID) (id : DexID) (detail : DexOperatorDetail) :
    Bool × DexOperators DexID :=
  let r := CacheStack.hasData acc .dexOperatorDetail st.operatorDetailCache (id : WithBot DexID)
  let st := { st with operatorDetailCache := r.1 }
  if r.2 then (false, st)
  else
    let r := st.hasDexOperatorByOwner acc mainDexId dex0Owner detail.ownerRegid
    if r.1 then (false, r.2)
    else andThen (r.2.setDetail acc id detail) fun st => st.setOwner acc detail.ownerRegid id

/-- `UpdateDexOperator`: whether the new owner has an operator is not looked at. -/
def updateDexOperator (st : DexOperators DexID) (id : DexID) (oldDetail detail : DexOperatorDetail) :
    Bool × DexOperators DexID :=
  if oldDetail.ownerRegid ≠ detail.ownerRegid then
    andThen (st.eraseOwner acc oldDetail.ownerRegid) fun st =>
      andThen (st.setOwner acc detail.ownerRegid id) fun st => st.setDetail acc id detail
  else st.setDetail acc id detail

end Model

/-! ## The flat maps -/

/-- Every cache has at least the level it was built with. -/
def Built (st : DexOperators DexID) : Prop :=
  st.operatorDetailCache ≠ [] ∧ st.operatorOwnerMapCache ≠ []

/-- The flat maps of the caches. -/
structure Views (DexID : Type) where
  detail : WithBot DexID → Option DexOperatorDetail
  owner : IneryRegIDKey → Option (Option DexID)

/-- The maps that the caches stand for. -/
def views (acc : CDBAccess) (st : DexOperators DexID) : Views DexID where
  detail := CacheStack.view acc .dexOperatorDetail st.operatorDetailCache
  owner := CacheStack.view acc .dexOperatorOwnerMap st.operatorOwnerMapCache

namespace Views

variable (v : Views DexID) (mainDexId : DexID) (dex0Owner : IneryRegID)

/-- The operator of an id. -/
def get (id : DexID) : Option DexOperatorDetail :=
  (v.detail id).or (if id = mainDexId then some (dex0 dex0Owner) else none)

/-- What the owner map answers for an owner, whose empty id it does not look up. -/
def ownerId (regid : IneryRegID) : Option (Option DexID) :=
  if isEmpty (⟨regid⟩ : IneryRegIDKey) then none else v.owner ⟨regid⟩

/-- The operator of an owner. -/
def byOwner (regid : IneryRegID) : Option (DexID × DexOperatorDetail) :=
  match v.ownerId regid with
  | some (some id) => (v.get mainDexId dex0Owner id).map fun detail => (id, detail)
  | some none => none
  | none =>
    if dex0Owner = regid then ((v.get mainDexId dex0Owner mainDexId).filter fun detail =>
      detail.ownerRegid = regid).map fun detail => (mainDexId, detail)
    else none

/-- Whether an owner has an operator. -/
def hasOwner (regid : IneryRegID) : Bool :=
  (v.ownerId regid).isSome || (dex0Owner = regid &&
    (v.get mainDexId dex0Owner mainDexId).any fun detail => detail.ownerRegid = regid)

/-- A record that is set; one that is empty is none. -/
def setDetail (id : DexID) (detail : DexOperatorDetail) : Views DexID :=
  { v with detail := Function.update v.detail (id : WithBot DexID) (live (some detail)) }

/-- The id of an owner that is set; an empty owner is no key of the map. -/
def setOwner (regid : IneryRegID) (id : DexID) : Views DexID :=
  { v with owner := if isEmpty (⟨regid⟩ : IneryRegIDKey) then v.owner
      else Function.update v.owner ⟨regid⟩ (some (some id)) }

def eraseOwner (regid : IneryRegID) : Views DexID :=
  { v with owner := Function.update v.owner ⟨regid⟩ none }

/-- What `CreateDexOperator` leaves. -/
def create (id : DexID) (detail : DexOperatorDetail) : Views DexID :=
  if (v.detail id).isSome || v.hasOwner mainDexId dex0Owner detail.ownerRegid then v
  else (v.setDetail id detail).setOwner detail.ownerRegid id

/-- What `UpdateDexOperator` leaves: an old owner that is empty stops it before it has written anything, and a new
one that is empty after it has given up the old one. -/
def update (id : DexID) (oldDetail detail : DexOperatorDetail) : Views DexID :=
  if oldDetail.ownerRegid = detail.ownerRegid then v.setDetail id detail
  else if isEmpty (⟨oldDetail.ownerRegid⟩ : IneryRegIDKey) then v
  else if isEmpty (⟨detail.ownerRegid⟩ : IneryRegIDKey) then v.eraseOwner oldDetail.ownerRegid
  else ((v.eraseOwner oldDetail.ownerRegid).setOwner detail.ownerRegid id).setDetail id detail

end Views

section Specs

variable (acc : CDBAccess) (mainDexId : DexID) (dex0Owner : IneryRegID) {st : DexOperators DexID}
  (hst : st.Built)

include hst

omit [DbUtil IneryRegIDKey] in
theorem getDexOperator_spec (id : DexID) : ∃ st',
    st.getDexOperator acc mainDexId dex0Owner id = ((st.views acc).get mainDexId dex0Owner id, st') ∧
      st'.Built ∧ st'.views acc = st.views acc := by
  have hkey : isEmpty (id : WithBot DexID) = false := rfl
  obtain ⟨s', heq, hne, hview⟩ := CacheStack.getData_spec acc .dexOperatorDetail hkey hst.1
  refine ⟨{ st with operatorDetailCache := s' }, by rw [getDexOperator, heq]; rfl, ⟨hne, hst.2⟩, ?_⟩
  simp only [views, hview]

theorem getOwner_spec (regid : IneryRegID) : ∃ s',
    CacheStack.getData acc .dexOperatorOwnerMap st.operatorOwnerMapCache ⟨regid⟩ =
      (s', (st.views acc).ownerId regid) ∧
    ({ st with operatorOwnerMapCache := s' } : DexOperators DexID).Built ∧
      ({ st with operatorOwnerMapCache := s' } : DexOperators DexID).views acc = st.views acc := by
  unfold Views.ownerId
  cases hkey : isEmpty (⟨regid⟩ : IneryRegIDKey) with
  | true => exact ⟨st.operatorOwnerMapCache, by rw [CacheStack.getData, if_pos hkey]; rfl, hst, rfl⟩
  | false =>
    obtain ⟨s', heq, hne, hview⟩ := CacheStack.getData_spec acc .dexOperatorOwnerMap hkey hst.2
    refine ⟨s', heq, ⟨hst.1, hne⟩, ?_⟩
    simp only [views, hview]

theorem getDexOperatorByOwner_spec (regid : IneryRegID) :
    (st.getDexOperatorByOwner acc mainDexId dex0Owner regid).1 =
      (st.views acc).byOwner mainDexId dex0Owner regid := by
  obtain ⟨s', heq, hst', hview⟩ := getOwner_spec acc hst regid
  unfold getDexOperatorByOwner Views.byOwner
  rw [heq]
  rcases (st.views acc).ownerId regid with _ | _ | id
  · obtain ⟨st₂, hget, -, -⟩ := getDexOperator_spec acc mainDexId dex0Owner hst' mainDexId
    simp only [hget, hview]
    split_ifs <;> rfl
  · rfl
  · obtain ⟨st₂, hget, -, -⟩ := getDexOperator_spec acc mainDexId dex0Owner hst' id
    simp only [hget, hview]

theorem hasDexOperatorByOwner_spec (regid : IneryRegID) : ∃ st',
    st.hasDexOperatorByOwner acc mainDexId dex0Owner regid =
      ((st.views acc).hasOwner mainDexId dex0Owner regid, st') ∧
        st'.Built ∧ st'.views acc = st.views acc := by
  obtain ⟨s', heq, hst', hview⟩ := getOwner_spec acc hst regid
  have hhas : CacheStack.hasData acc .dexOperatorOwnerMap st.operatorOwnerMapCache ⟨regid⟩ =
      (s', ((st.views acc).ownerId regid).isSome) := by
    rw [CacheStack.hasData_eq, heq]
  unfold hasDexOperatorByOwner Views.hasOwner
  rw [hhas]
  cases ho : ((st.views acc).ownerId regid).isSome with
  | true => exact ⟨_, rfl, hst', hview⟩
  | false =>
    by_cases hmain : dex0Owner = regid
    · obtain ⟨st₂, hget, hst₂, hview₂⟩ := getDexOperator_spec acc mainDexId dex0Owner hst' mainDexId
      subst hmain
      refine ⟨st₂, ?_, hst₂, hview₂.trans hview⟩
      simp [hget, hview]
    · refine ⟨_, ?_, hst', hview⟩
      simp [hmain]

/-! ## Writes -/

omit [DbUtil IneryRegIDKey] in
theorem setDetail_spec (id : DexID) (detail : DexOperatorDetail) : ∃ st',
    st.setDetail acc id detail = (true, st') ∧ st'.Built ∧ st'.views acc = (st.views acc).setDetail id detail := by
  have hkey : isEmpty (id : WithBot DexID) = false := rfl
  obtain ⟨s', log', heq, hne, hview⟩ :=
    CacheStack.setData_spec acc .dexOperatorDetail hkey st.pDbOpLogMap hst.1 detail
  refine ⟨{ st with operatorDetailCache := s', pDbOpLogMap := log' }, by rw [setDetail, heq],
    ⟨hne, hst.2⟩, ?_⟩
  simp only [views, hview, Views.setDetail]

theorem setOwner_spec (regid : IneryRegID) (id : DexID) : ∃ st', st.setOwner acc regid id =
    (!isEmpty (⟨regid⟩ : IneryRegIDKey), st') ∧ st'.Built ∧
      st'.views acc = (st.views acc).setOwner regid id := by
  unfold Views.setOwner
  cases hkey : isEmpty (⟨regid⟩ : IneryRegIDKey) with
  | true => exact ⟨st, by rw [setOwner, CacheStack.setData, if_pos hkey]; rfl, hst, rfl⟩
  | false =>
    obtain ⟨s', log', heq, hne, hview⟩ :=
      CacheStack.setData_spec acc .dexOperatorOwnerMap hkey st.pDbOpLogMap hst.2 (some id)
    refine ⟨{ st with operatorOwnerMapCache := s', pDbOpLogMap := log' }, by rw [setOwner, heq]; rfl,
      ⟨hst.1, hne⟩, ?_⟩
    simp only [views, hview]
    rfl

theorem eraseOwner_spec (regid : IneryRegID) : ∃ st', st.eraseOwner acc regid =
    (!isEmpty (⟨regid⟩ : IneryRegIDKey), st') ∧ st'.Built ∧
      st'.views acc = if isEmpty (⟨regid⟩ : IneryRegIDKey) then st.views acc
        else (st.views acc).eraseOwner regid := by
  cases hkey : isEmpty (⟨regid⟩ : IneryRegIDKey) with
  | true => exact ⟨st, by rw [eraseOwner, CacheStack.eraseData, if_pos hkey]; rfl, hst, rfl⟩
  | false =>
    obtain ⟨s', log', heq, hne, hview⟩ :=
      CacheStack.eraseData_spec acc .dexOperatorOwnerMap hkey st.pDbOpLogMap hst.2
    refine ⟨{ st with operatorOwnerMapCache := s', pDbOpLogMap := log' }, by rw [eraseOwner, heq]; rfl,
      ⟨hst.1, hne⟩, ?_⟩
    simp only [views, hview]
    rfl

/-- **`CreateDexOperator`** adds an operator, unless its id or its owner has one. -/
theorem createDexOperator_spec (id : DexID) (detail : DexOperatorDetail) : ∃ r st',
    st.createDexOperator acc mainDexId dex0Owner id detail = (r, st') ∧ st'.Built ∧
      st'.views acc = (st.views acc).create mainDexId dex0Owner id detail := by
  have hkey : isEmpty (id : WithBot DexID) = false := rfl
  obtain ⟨s₁, hget, hne, hview⟩ := CacheStack.getData_spec acc .dexOperatorDetail hkey hst.1
  have hst₁ : ({ st with operatorDetailCache := s₁ } : DexOperators DexID).Built := ⟨hne, hst.2⟩
  have hv₁ : ({ st with operatorDetailCache := s₁ } : DexOperators DexID).views acc = st.views acc := by
    simp only [views, hview]
  have hdet : (st.views acc).detail id = CacheStack.view acc .dexOperatorDetail st.operatorDetailCache id := rfl
  unfold createDexOperator Views.create
  rw [CacheStack.hasData_eq, hget, hdet]
  cases CacheStack.view acc .dexOperatorDetail st.operatorDetailCache (id : WithBot DexID) with
  | some d => exact ⟨_, _, rfl, hst₁, hv₁⟩
  | none =>
    obtain ⟨st₂, hhas, hst₂, hv₂⟩ := hasDexOperatorByOwner_spec acc mainDexId dex0Owner hst₁ detail.ownerRegid
    simp only [Option.isSome_none, Bool.false_eq_true, if_false, Bool.false_or, hhas, hv₁]
    cases (st.views acc).hasOwner mainDexId dex0Owner detail.ownerRegid with
    | true => exact ⟨_, _, rfl, hst₂, hv₂.trans hv₁⟩
    | false =>
      obtain ⟨st₃, h₃, hst₃, hv₃⟩ := setDetail_spec acc hst₂ id detail
      obtain ⟨st₄, h₄, hst₄, hv₄⟩ := setOwner_spec acc hst₃ detail.ownerRegid id
      refine ⟨!isEmpty (⟨detail.ownerRegid⟩ : IneryRegIDKey), st₄, ?_, hst₄, ?_⟩
      · simp only [Bool.false_eq_true, if_false, h₃, andThen_true, h₄]
      · rw [hv₄, hv₃, hv₂, hv₁]
        rfl

/-- **`UpdateDexOperator`** replaces an operator; when the owner changes, the map gives up the old one and takes the
new one, whoever had it. -/
theorem updateDexOperator_spec (id : DexID) (oldDetail detail : DexOperatorDetail) : ∃ r st',
    st.updateDexOperator acc id oldDetail detail = (r, st') ∧ st'.Built ∧
      st'.views acc = (st.views acc).update id oldDetail detail := by
  unfold updateDexOperator Views.update
  by_cases hsame : oldDetail.ownerRegid = detail.ownerRegid
  · obtain ⟨st₁, h₁, hst₁, hv₁⟩ := setDetail_spec acc hst id detail
    rw [if_neg (not_not.mpr hsame), if_pos hsame]
    exact ⟨true, st₁, h₁, hst₁, hv₁⟩
  · obtain ⟨st₁, h₁, hst₁, hv₁⟩ := eraseOwner_spec acc hst oldDetail.ownerRegid
    obtain ⟨st₂, h₂, hst₂, hv₂⟩ := setOwner_spec acc hst₁ detail.ownerRegid id
    rw [if_pos hsame, if_neg hsame, h₁]
    cases hold : isEmpty (⟨oldDetail.ownerRegid⟩ : IneryRegIDKey) with
    | true => exact ⟨false, st₁, rfl, hst₁, by rw [hv₁, hold]; rfl⟩
    | false =>
      rw [hold, if_neg Bool.false_ne_true] at hv₁
      rw [Bool.not_false, andThen_true, h₂, if_neg Bool.false_ne_true]
      cases hnew : isEmpty (⟨detail.ownerRegid⟩ : IneryRegIDKey) with
      | true => exact ⟨false, st₂, rfl, hst₂, by rw [hv₂, Views.setOwner, hnew, hv₁]; rfl⟩
      | false =>
        obtain ⟨st₃, h₃, hst₃, hv₃⟩ := setDetail_spec acc hst₂ id detail
        exact ⟨true, st₃, by rw [Bool.not_false, andThen_true, h₃], hst₃, by rw [hv₃, hv₂, hv₁]; rfl⟩

end Specs

end DexOperators

end Inery
