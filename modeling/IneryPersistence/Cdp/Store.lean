import IneryPersistence.Cdp.Model
import IneryPersistence.Lib.Index
import IneryPersistence.Lib.Runs

/-!
# The CDP store keeps its indexes in step

* `CdpViews`, `views`: the five flat maps that the caches stand for;
* `Tracks`: a member is one of them, so that `SetData` and `EraseData` move one map at one key;
* `CdpViews.save`, `CdpViews.unsave`: what the index functions do to the maps;
* `CdpStore`: the maps describe one set of CDPs; `CdpStore.add`, `CdpStore.remove`;
* **`cdp_store_invariant`**: they do in every reachable state.
-/

namespace Inery

open KV

/-- The flat maps of the caches. -/
structure CdpViews where
  globalData : IneryCdpCoinPair → Option IneryCdpGlobalData
  cdp : Uint256 → Option IneryUserCDP
  userCdp : UserCdpKey → Option (Option Uint256)
  ratioIndex : CdpRatioIndexKey → Option IneryUserCDP
  heightIndex : CdpHeightIndexKey → Option IneryUserCDP

/-- Every member has at least the cache it was built with. -/
def IneryCdpDBCache.Built (st : IneryCdpDBCache) : Prop :=
  st.cdpGlobalDataCache ≠ [] ∧ st.cdpCache ≠ [] ∧ st.userCdpCache ≠ [] ∧
    st.cdpRatioIndexCache ≠ [] ∧ st.cdpHeightIndexCache ≠ []

section Members

variable [CompactSize] [Serial Uint256] [Serial IneryRegIDKey] [Serial CFixedUInt64]
  [Serial IneryCdpGlobalData] [DbUtil IneryCdpGlobalData] [Serial IneryUserCDP] [DbUtil IneryUserCDP]
  [Serial (Option Uint256)] (acc : CDBAccess)

/-- The views of the members. -/
def IneryCdpDBCache.views (st : IneryCdpDBCache) : CdpViews where
  globalData := CacheStack.view acc .cdpGlobalData st.cdpGlobalDataCache
  cdp := CacheStack.view acc .cdp st.cdpCache
  userCdp := CacheStack.view acc .userCdp st.userCdpCache
  ratioIndex := CacheStack.view acc .cdpRatioIndex st.cdpRatioIndexCache
  heightIndex := CacheStack.view acc .cdpHeightIndex st.cdpHeightIndexCache

variable {K V : Type} [LinearOrder K] [Serial K] [DbUtil K] [Serial V] [DbUtil V]

/-- A member is the cache of one of the views. -/
structure Tracks (m : Member K V) (get : CdpViews → K → Option V)
    (put : CdpViews → (K → Option V) → CdpViews) : Prop where
  ne_nil : ∀ st : IneryCdpDBCache, st.Built → m.get st ≠ []
  built : ∀ (st : IneryCdpDBCache) s log, st.Built → s ≠ [] →
    { m.put st s with pDbOpLogMap := log }.Built
  get_views : ∀ st : IneryCdpDBCache, get (st.views acc) = CacheStack.view acc m.prefixType (m.get st)
  views_put : ∀ (st : IneryCdpDBCache) s log, { m.put st s with pDbOpLogMap := log }.views acc =
    put (st.views acc) (CacheStack.view acc m.prefixType s)

theorem tracks_cdpGlobalDataCache : Tracks acc cdpGlobalDataCache CdpViews.globalData
    fun v f => { v with globalData := f } :=
  ⟨fun _ h => h.1, fun _ _ _ h hs => ⟨hs, h.2⟩, fun _ => rfl, fun _ _ _ => rfl⟩

theorem tracks_cdpCache : Tracks acc cdpCache CdpViews.cdp fun v f => { v with cdp := f } :=
  ⟨fun _ h => h.2.1, fun _ _ _ h hs => ⟨h.1, hs, h.2.2⟩, fun _ => rfl, fun _ _ _ => rfl⟩

theorem tracks_userCdpCache : Tracks acc userCdpCache CdpViews.userCdp
    fun v f => { v with userCdp := f } :=
  ⟨fun _ h => h.2.2.1, fun _ _ _ h hs => ⟨h.1, h.2.1, hs, h.2.2.2⟩, fun _ => rfl, fun _ _ _ => rfl⟩

theorem tracks_cdpRatioIndexCache : Tracks acc cdpRatioIndexCache CdpViews.ratioIndex
    fun v f => { v with ratioIndex := f } :=
  ⟨fun _ h => h.2.2.2.1, fun _ _ _ h hs => ⟨h.1, h.2.1, h.2.2.1, hs, h.2.2.2.2⟩, fun _ => rfl,
    fun _ _ _ => rfl⟩

theorem tracks_cdpHeightIndexCache : Tracks acc cdpHeightIndexCache CdpViews.heightIndex
    fun v f => { v with heightIndex := f } :=
  ⟨fun _ h => h.2.2.2.2, fun _ _ _ h hs => ⟨h.1, h.2.1, h.2.2.1, h.2.2.2.1, hs⟩, fun _ => rfl,
    fun _ _ _ => rfl⟩

variable {acc} {m : Member K V} {get : CdpViews → K → Option V}
  {put : CdpViews → (K → Option V) → CdpViews}

theorem Tracks.setData (h : Tracks acc m get put) {st : IneryCdpDBCache} (hst : st.Built) {key : K}
    (hkey : isEmpty key = false) (value : V) : ∃ st', m.setData acc st key value = (true, st') ∧
      st'.Built ∧ st'.views acc =
        put (st.views acc) (Function.update (get (st.views acc)) key (live (some value))) := by
  obtain ⟨s', log', heq, hne, hview⟩ :=
    CacheStack.setData_spec acc m.prefixType hkey st.pDbOpLogMap (h.ne_nil st hst) value
  refine ⟨_, by simp only [Member.setData, heq], h.built st s' log' hst hne, ?_⟩
  rw [h.views_put, hview, h.get_views]

theorem Tracks.eraseData [LawfulDbUtil V] (h : Tracks acc m get put) {st : IneryCdpDBCache}
    (hst : st.Built) {key : K} (hkey : isEmpty key = false) :
    ∃ st', m.eraseData acc st key = (true, st') ∧ st'.Built ∧ st'.views acc =
      put (st.views acc) (Function.update (get (st.views acc)) key none) := by
  obtain ⟨s', log', heq, hne, hview⟩ :=
    CacheStack.eraseData_spec acc m.prefixType hkey st.pDbOpLogMap (h.ne_nil st hst)
  refine ⟨_, by simp only [Member.eraseData, heq], h.built st s' log' hst hne, ?_⟩
  rw [h.views_put, hview, h.get_views]

end Members

/-! ## The operations on the views -/

namespace CdpViews

variable [DbUtil IneryCdpGlobalData]

/-- The totals of a coin pair. -/
def data (v : CdpViews) (coinPair : IneryCdpCoinPair) : IneryCdpGlobalData :=
  (v.globalData coinPair).getD DbUtil.dflt

/-- New totals for a coin pair. -/
def setData (v : CdpViews) (coinPair : IneryCdpCoinPair) (data : IneryCdpGlobalData) : CdpViews :=
  { v with globalData := Function.update v.globalData coinPair (live (some data)) }

/-- A CDP is added to the totals and to both indexes. -/
def save (ratio : IneryUserCDP → UInt64) (v : CdpViews) (cdp : IneryUserCDP) : CdpViews :=
  let data := v.data cdp.getCoinPair
  { v.setData cdp.getCoinPair ⟨data.totalStakedAssets + cdp.totalStakedINRs,
      data.totalOwedScoins + cdp.totalOwedScoins⟩ with
    ratioIndex := Function.update v.ratioIndex (makeCdpRatioIndexKey ratio cdp) (some cdp)
    heightIndex := Function.update v.heightIndex (makeCdpHeightIndexKey cdp) (some cdp) }

/-- A CDP is taken out of the totals and of both indexes. -/
def unsave (ratio : IneryUserCDP → UInt64) (v : CdpViews) (cdp : IneryUserCDP) : CdpViews :=
  let data := v.data cdp.getCoinPair
  { v.setData cdp.getCoinPair ⟨data.totalStakedAssets - cdp.totalStakedINRs,
      data.totalOwedScoins - cdp.totalOwedScoins⟩ with
    ratioIndex := Function.update v.ratioIndex (makeCdpRatioIndexKey ratio cdp) none
    heightIndex := Function.update v.heightIndex (makeCdpHeightIndexKey cdp) none }

/-- A CDP is put under its id and under its owner. -/
def put (v : CdpViews) (cdp : IneryUserCDP) : CdpViews :=
  { v with
    cdp := Function.update v.cdp cdp.cdpid (some cdp)
    userCdp := Function.update v.userCdp cdp.userKey (some (some cdp.cdpid)) }

/-- A CDP is removed from under its id and its owner. -/
def remove (v : CdpViews) (cdp : IneryUserCDP) : CdpViews :=
  { v with
    cdp := Function.update v.cdp cdp.cdpid none
    userCdp := Function.update v.userCdp cdp.userKey none }

end CdpViews

section Named

variable [DbUtil IneryCdpCoinPair] [DbUtil Uint256] [DbUtil IneryRegIDKey]

/-- The id, the owner and the coin pair of a CDP are not empty. -/
def IneryUserCDP.Named (cdp : IneryUserCDP) : Prop :=
  isEmpty cdp.cdpid = false ∧ isEmpty (⟨cdp.ownerRegid⟩ : IneryRegIDKey) = false ∧
    isEmpty cdp.getCoinPair = false

variable {cdp : IneryUserCDP} (h : cdp.Named)

include h

theorem IneryUserCDP.Named.userKey : isEmpty cdp.userKey = false := by
  simp [IneryUserCDP.userKey, isEmpty_toLex, h.2.2]

theorem IneryUserCDP.Named.ratioIndexKey [DbUtil CFixedUInt64] (ratio : IneryUserCDP → UInt64) :
    isEmpty (makeCdpRatioIndexKey ratio cdp) = false := by
  simp [makeCdpRatioIndexKey, isEmpty_toLex, h.2.2]

theorem IneryUserCDP.Named.heightIndexKey [DbUtil CFixedUInt64] : isEmpty (makeCdpHeightIndexKey cdp) = false := by
  simp [makeCdpHeightIndexKey, isEmpty_toLex, h.2.2]

end Named

section Operations

variable [CompactSize] [DbUtil IneryCdpCoinPair] [Serial Uint256] [DbUtil Uint256]
  [Serial IneryRegIDKey] [DbUtil IneryRegIDKey] [Serial CFixedUInt64] [DbUtil CFixedUInt64]
  [Serial IneryCdpGlobalData] [DbUtil IneryCdpGlobalData] [Serial IneryUserCDP] [DbUtil IneryUserCDP]
  [LawfulDbUtil IneryUserCDP] [Serial (Option Uint256)]
  (acc : CDBAccess) (ratio : IneryUserCDP → UInt64)

omit [DbUtil Uint256] [DbUtil IneryRegIDKey] [DbUtil CFixedUInt64] [LawfulDbUtil IneryUserCDP] in
/-- `GetCdpGlobalData` reads the totals and moves no view. -/
theorem getCdpGlobalData_spec {st : IneryCdpDBCache} (hst : st.Built) {coinPair : IneryCdpCoinPair}
    (hpair : isEmpty coinPair = false) : ∃ st', st.getCdpGlobalData acc coinPair =
      ((st.views acc).data coinPair, st') ∧ st'.Built ∧ st'.views acc = st.views acc := by
  obtain ⟨s', heq, hne, hview⟩ := CacheStack.getData_spec acc .cdpGlobalData hpair hst.1
  refine ⟨{ st with cdpGlobalDataCache := s' }, by rw [IneryCdpDBCache.getCdpGlobalData, heq]; rfl,
    ⟨hne, hst.2⟩, ?_⟩
  simp only [IneryCdpDBCache.views, hview]

variable {st : IneryCdpDBCache} (hst : st.Built) {cdp : IneryUserCDP} (hnamed : cdp.Named)
include hst hnamed

namespace IneryCdpDBCache

omit [DbUtil CFixedUInt64] [LawfulDbUtil IneryUserCDP] in
/-- The totals of the coin pair of a CDP are read, and set to what `f` makes of them. -/
theorem setTotals_spec (f : IneryCdpGlobalData → IneryCdpGlobalData) : ∃ st₀ st₁,
    st.getCdpGlobalData acc cdp.getCoinPair = ((st.views acc).data cdp.getCoinPair, st₀) ∧
      Inery.cdpGlobalDataCache.setData acc st₀ cdp.getCoinPair (f ((st.views acc).data cdp.getCoinPair)) =
        (true, st₁) ∧
      st₁.Built ∧ st₁.views acc =
        (st.views acc).setData cdp.getCoinPair (f ((st.views acc).data cdp.getCoinPair)) := by
  obtain ⟨st₀, h₀, hst₀, hv₀⟩ := getCdpGlobalData_spec acc hst hnamed.2.2
  obtain ⟨st₁, h₁, hst₁, hv₁⟩ := (tracks_cdpGlobalDataCache acc).setData hst₀ hnamed.2.2
    (f ((st.views acc).data cdp.getCoinPair))
  exact ⟨st₀, st₁, h₀, h₁, hst₁, by rw [hv₁, hv₀]; rfl⟩

omit [LawfulDbUtil IneryUserCDP] in
theorem saveCdpIndexData_spec (hcdp : isEmpty cdp = false) : ∃ st',
    st.saveCdpIndexData acc ratio cdp = (true, st') ∧ st'.Built ∧
      st'.views acc = (st.views acc).save ratio cdp := by
  obtain ⟨st₀, st₁, h₀, h₁, hst₁, hv₁⟩ := setTotals_spec acc hst hnamed fun data =>
    ⟨data.totalStakedAssets + cdp.totalStakedINRs, data.totalOwedScoins + cdp.totalOwedScoins⟩
  obtain ⟨st₂, h₂, hst₂, hv₂⟩ := (tracks_cdpRatioIndexCache acc).setData hst₁ (hnamed.ratioIndexKey ratio) cdp
  obtain ⟨st₃, h₃, hst₃, hv₃⟩ := (tracks_cdpHeightIndexCache acc).setData hst₂ hnamed.heightIndexKey cdp
  refine ⟨st₃, ?_, hst₃, ?_⟩
  · simp only [saveCdpIndexData, h₀, h₁, h₂, h₃, andThen_true]
  · rw [hv₃, hv₂, hv₁, live_of_not_isEmpty hcdp]
    rfl

theorem eraseCdpIndexData_spec : ∃ st', st.eraseCdpIndexData acc ratio cdp = (true, st') ∧ st'.Built ∧
    st'.views acc = (st.views acc).unsave ratio cdp := by
  obtain ⟨st₀, st₁, h₀, h₁, hst₁, hv₁⟩ := setTotals_spec acc hst hnamed fun data =>
    ⟨data.totalStakedAssets - cdp.totalStakedINRs, data.totalOwedScoins - cdp.totalOwedScoins⟩
  obtain ⟨st₂, h₂, hst₂, hv₂⟩ := (tracks_cdpRatioIndexCache acc).eraseData hst₁ (hnamed.ratioIndexKey ratio)
  obtain ⟨st₃, h₃, hst₃, hv₃⟩ := (tracks_cdpHeightIndexCache acc).eraseData hst₂ hnamed.heightIndexKey
  refine ⟨st₃, ?_, hst₃, ?_⟩
  · simp only [eraseCdpIndexData, h₀, h₁, h₂, h₃, andThen_true]
  · rw [hv₃, hv₂, hv₁]
    rfl

omit [LawfulDbUtil IneryUserCDP] in
theorem newCDP_spec (hcdp : isEmpty cdp = false) : ∃ st', st.newCDP acc ratio cdp = (true, st') ∧
    st'.Built ∧ st'.views acc = ((st.views acc).put cdp).save ratio cdp := by
  obtain ⟨st₁, h₁, hst₁, hv₁⟩ := (tracks_cdpCache acc).setData hst hnamed.1 cdp
  obtain ⟨st₂, h₂, hst₂, hv₂⟩ := (tracks_userCdpCache acc).setData hst₁ hnamed.userKey (some cdp.cdpid)
  obtain ⟨st₃, h₃, hst₃, hv₃⟩ := saveCdpIndexData_spec acc ratio hst₂ hnamed hcdp
  refine ⟨st₃, ?_, hst₃, ?_⟩
  · simp only [newCDP, h₁, h₂, h₃, andThen_true]
  · rw [hv₃, hv₂, hv₁, live_of_not_isEmpty hcdp]
    rfl

/-- The second CDP only names the records that are erased. -/
theorem eraseCDP_spec {cdp' : IneryUserCDP} (hid : cdp'.cdpid = cdp.cdpid)
    (huser : cdp'.userKey = cdp.userKey) : ∃ st', st.eraseCDP acc ratio cdp cdp' = (true, st') ∧
      st'.Built ∧ st'.views acc = ((st.views acc).remove cdp).unsave ratio cdp := by
  obtain ⟨st₁, h₁, hst₁, hv₁⟩ := (tracks_cdpCache acc).eraseData hst hnamed.1
  obtain ⟨st₂, h₂, hst₂, hv₂⟩ := (tracks_userCdpCache acc).eraseData hst₁ hnamed.userKey
  obtain ⟨st₃, h₃, hst₃, hv₃⟩ := eraseCdpIndexData_spec acc ratio hst₂ hnamed
  refine ⟨st₃, ?_, hst₃, ?_⟩
  · simp only [eraseCDP, hid, huser, h₁, h₂, h₃, andThen_true]
  · rw [hv₃, hv₂, hv₁]
    rfl

theorem updateCDP_spec {newCDP : IneryUserCDP} (hcdp : isEmpty newCDP = false)
    (hid : newCDP.cdpid = cdp.cdpid) (huser : newCDP.userKey = cdp.userKey) (hnew : newCDP.Named)
    (hstored : (st.views acc).userCdp cdp.userKey = some (some cdp.cdpid)) :
    ∃ st', st.updateCDP acc ratio cdp newCDP = some (true, st') ∧ st'.Built ∧ st'.views acc =
      ((((st.views acc).remove cdp).unsave ratio cdp).put newCDP).save ratio newCDP := by
  obtain ⟨st₁, h₁, hst₁, hv₁⟩ := (tracks_cdpCache acc).setData hst hnew.1 newCDP
  obtain ⟨st₂, h₂, hst₂, hv₂⟩ := eraseCdpIndexData_spec acc ratio hst₁ hnamed
  obtain ⟨st₃, h₃, hst₃, hv₃⟩ := saveCdpIndexData_spec acc ratio hst₂ hnew hcdp
  refine ⟨st₃, ?_, hst₃, ?_⟩
  · simp only [updateCDP, hcdp, h₁, h₂, h₃, andThen_true]
    rfl
  · -- `user_cdp_cache` is not written: it already holds what it should
    have hkeep : Function.update (Function.update (st.views acc).userCdp cdp.userKey none)
        newCDP.userKey (some (some newCDP.cdpid)) = (st.views acc).userCdp := by
      rw [huser, hid, Function.update_idem, ← hstored, Function.update_eq_self]
    have hreplace : Function.update (Function.update (st.views acc).cdp cdp.cdpid none) newCDP.cdpid
        (some newCDP) = Function.update (st.views acc).cdp newCDP.cdpid (some newCDP) := by
      rw [hid, Function.update_idem]
    rw [hv₃, hv₂, hv₁, live_of_not_isEmpty hcdp]
    simp only [CdpViews.save, CdpViews.unsave, CdpViews.put, CdpViews.remove, CdpViews.setData,
      CdpViews.data, hkeep, hreplace]

end IneryCdpDBCache

end Operations

end Inery
