import IneryPersistence.Cache.Refine
import IneryPersistence.Cdp.Keys

/-!
# The CDP store

`IneryCdpDBCache` keeps every CDP under its id, under its owner and coin pair, and in two indexes, and
the totals of every coin pair.

* `IneryUserCDP`, `IneryCdpGlobalData`, `IneryCdpDBCache`: the data;
* `Member`: one of the caches, with `SetData` and `EraseData` on it;
* `newCDP`, `updateCDP`, `eraseCDP`, `saveCdpIndexData`, `eraseCdpIndexData`: the operations;
* `CdpOp`, `step`: the operations as steps of a run.
-/

namespace Inery

open KV

/-- What the store reads of a CDP; `collateralRatioBase` is a floating point number, here its bits. -/
structure IneryUserCDP where
  cdpid : Uint256
  ownerRegid : IneryRegID
  blockHeight : UInt64
  assetSymbol : TokenSymbol
  scoinSymbol : TokenSymbol
  totalStakedINRs : UInt64
  totalOwedScoins : UInt64
  collateralRatioBase : UInt64
deriving DecidableEq

/-- `GetCoinPair`. -/
def IneryUserCDP.getCoinPair (cdp : IneryUserCDP) : IneryCdpCoinPair := ⟨cdp.assetSymbol, cdp.scoinSymbol⟩

/-- The key of a CDP in `user_cdp_cache`. -/
def IneryUserCDP.userKey (cdp : IneryUserCDP) : UserCdpKey := toLex (⟨cdp.ownerRegid⟩, cdp.getCoinPair)

/-- The totals of a coin pair. -/
@[ext] structure IneryCdpGlobalData where
  totalStakedAssets : UInt64
  totalOwedScoins : UInt64

/-- The caches of the store and the log they write to. -/
structure IneryCdpDBCache where
  cdpGlobalDataCache : CacheStack IneryCdpCoinPair IneryCdpGlobalData
  cdpCache : CacheStack Uint256 IneryUserCDP
  userCdpCache : CacheStack UserCdpKey (Option Uint256)
  cdpRatioIndexCache : CacheStack CdpRatioIndexKey IneryUserCDP
  cdpHeightIndexCache : CacheStack CdpHeightIndexKey IneryUserCDP
  pDbOpLogMap : Option CDBOpLogMap

/-- One of the caches of the store. -/
structure Member (K V : Type) [LinearOrder K] where
  prefixType : PrefixType
  get : IneryCdpDBCache → CacheStack K V
  put : IneryCdpDBCache → CacheStack K V → IneryCdpDBCache

section Member

variable {K V : Type} [LinearOrder K] [Serial K] [DbUtil K] [Serial V] [DbUtil V]

/-- `SetData` on a member. -/
def Member.setData (m : Member K V) (acc : CDBAccess) (st : IneryCdpDBCache) (key : K) (value : V) :
    Bool × IneryCdpDBCache :=
  let r := CacheStack.setData acc m.prefixType st.pDbOpLogMap (m.get st) key value
  (r.2.1, { m.put st r.1 with pDbOpLogMap := r.2.2 })

/-- `EraseData` on a member. -/
def Member.eraseData (m : Member K V) (acc : CDBAccess) (st : IneryCdpDBCache) (key : K) :
    Bool × IneryCdpDBCache :=
  let r := CacheStack.eraseData acc m.prefixType st.pDbOpLogMap (m.get st) key
  (r.2.1, { m.put st r.1 with pDbOpLogMap := r.2.2 })

end Member

def cdpGlobalDataCache : Member IneryCdpCoinPair IneryCdpGlobalData :=
  ⟨.cdpGlobalData, IneryCdpDBCache.cdpGlobalDataCache, fun st s => { st with cdpGlobalDataCache := s }⟩

def cdpCache : Member Uint256 IneryUserCDP :=
  ⟨.cdp, IneryCdpDBCache.cdpCache, fun st s => { st with cdpCache := s }⟩

def userCdpCache : Member UserCdpKey (Option Uint256) :=
  ⟨.userCdp, IneryCdpDBCache.userCdpCache, fun st s => { st with userCdpCache := s }⟩

def cdpRatioIndexCache : Member CdpRatioIndexKey IneryUserCDP :=
  ⟨.cdpRatioIndex, IneryCdpDBCache.cdpRatioIndexCache, fun st s => { st with cdpRatioIndexCache := s }⟩

def cdpHeightIndexCache : Member CdpHeightIndexKey IneryUserCDP :=
  ⟨.cdpHeightIndex, IneryCdpDBCache.cdpHeightIndexCache, fun st s => { st with cdpHeightIndexCache := s }⟩

/-- `MakeCdpRatioIndexKey`; `ratio` computes the boosted ratio of a CDP. -/
def makeCdpRatioIndexKey (ratio : IneryUserCDP → UInt64) (cdp : IneryUserCDP) : CdpRatioIndexKey :=
  toLex (cdp.getCoinPair, toLex (⟨ratio cdp⟩, toLex (⟨cdp.blockHeight⟩, cdp.cdpid)))

/-- `MakeCdpHeightIndexKey`. -/
def makeCdpHeightIndexKey (cdp : IneryUserCDP) : CdpHeightIndexKey :=
  toLex (cdp.getCoinPair, toLex (⟨cdp.blockHeight⟩, cdp.cdpid))

namespace IneryCdpDBCache

variable [CompactSize] [DbUtil IneryCdpCoinPair] [Serial Uint256] [DbUtil Uint256]
  [Serial IneryRegIDKey] [DbUtil IneryRegIDKey] [Serial CFixedUInt64] [DbUtil CFixedUInt64]
  [Serial IneryCdpGlobalData] [DbUtil IneryCdpGlobalData] [Serial IneryUserCDP] [DbUtil IneryUserCDP]
  [Serial (Option Uint256)] (acc : CDBAccess) (ratio : IneryUserCDP → UInt64)

/-- `GetCdpGlobalData`: the default without a record. -/
def getCdpGlobalData (st : IneryCdpDBCache) (cdpCoinPair : IneryCdpCoinPair) :
    IneryCdpGlobalData × IneryCdpDBCache :=
  let r := CacheStack.getData acc .cdpGlobalData st.cdpGlobalDataCache cdpCoinPair
  (r.2.getD DbUtil.dflt, { st with cdpGlobalDataCache := r.1 })

/-- `SaveCdpIndexData`. -/
def saveCdpIndexData (st : IneryCdpDBCache) (userCdp : IneryUserCDP) : Bool × IneryCdpDBCache :=
  let cdpCoinPair := userCdp.getCoinPair
  let r := st.getCdpGlobalData acc cdpCoinPair
  let cdpGlobalData : IneryCdpGlobalData :=
    ⟨r.1.totalStakedAssets + userCdp.totalStakedINRs, r.1.totalOwedScoins + userCdp.totalOwedScoins⟩
  andThen (Inery.cdpGlobalDataCache.setData acc r.2 cdpCoinPair cdpGlobalData) fun st =>
    andThen (Inery.cdpRatioIndexCache.setData acc st (makeCdpRatioIndexKey ratio userCdp) userCdp) fun st =>
      Inery.cdpHeightIndexCache.setData acc st (makeCdpHeightIndexKey userCdp) userCdp

/-- `EraseCdpIndexData`, which does not look at the result of `SetData`. -/
def eraseCdpIndexData (st : IneryCdpDBCache) (userCdp : IneryUserCDP) : Bool × IneryCdpDBCache :=
  let cdpCoinPair := userCdp.getCoinPair
  let r := st.getCdpGlobalData acc cdpCoinPair
  let cdpGlobalData : IneryCdpGlobalData :=
    ⟨r.1.totalStakedAssets - userCdp.totalStakedINRs, r.1.totalOwedScoins - userCdp.totalOwedScoins⟩
  let st := (Inery.cdpGlobalDataCache.setData acc r.2 cdpCoinPair cdpGlobalData).2
  andThen (Inery.cdpRatioIndexCache.eraseData acc st (makeCdpRatioIndexKey ratio userCdp)) fun st =>
    Inery.cdpHeightIndexCache.eraseData acc st (makeCdpHeightIndexKey userCdp)

/-- `NewCDP`, which does not use the block height it gets. -/
def newCDP (st : IneryCdpDBCache) (cdp : IneryUserCDP) : Bool × IneryCdpDBCache :=
  andThen (Inery.cdpCache.setData acc st cdp.cdpid cdp) fun st =>
    andThen (Inery.userCdpCache.setData acc st cdp.userKey (some cdp.cdpid)) fun st =>
      st.saveCdpIndexData acc ratio cdp

/-- `EraseCDP`. -/
def eraseCDP (st : IneryCdpDBCache) (oldCDP cdp : IneryUserCDP) : Bool × IneryCdpDBCache :=
  andThen (Inery.cdpCache.eraseData acc st cdp.cdpid) fun st =>
    andThen (Inery.userCdpCache.eraseData acc st cdp.userKey) fun st =>
      st.eraseCdpIndexData acc ratio oldCDP

/-- `UpdateCDP`; `none` when the assertion fails. -/
def updateCDP (st : IneryCdpDBCache) (oldCDP newCDP : IneryUserCDP) : Option (Bool × IneryCdpDBCache) :=
  if isEmpty newCDP then none
  else some <|
    andThen (Inery.cdpCache.setData acc st newCDP.cdpid newCDP) fun st =>
      andThen (st.eraseCdpIndexData acc ratio oldCDP) fun st => st.saveCdpIndexData acc ratio newCDP

end IneryCdpDBCache

/-- The operations on the store. -/
inductive CdpOp
  | new (cdp : IneryUserCDP)
  | update (oldCDP newCDP : IneryUserCDP)
  | erase (oldCDP cdp : IneryUserCDP)

namespace IneryCdpDBCache

variable [CompactSize] [DbUtil IneryCdpCoinPair] [Serial Uint256] [DbUtil Uint256]
  [Serial IneryRegIDKey] [DbUtil IneryRegIDKey] [Serial CFixedUInt64] [DbUtil CFixedUInt64]
  [Serial IneryCdpGlobalData] [DbUtil IneryCdpGlobalData] [Serial IneryUserCDP] [DbUtil IneryUserCDP]
  [Serial (Option Uint256)]

/-- One operation of a run. -/
def step (acc : CDBAccess) (ratio : IneryUserCDP → UInt64) (st : IneryCdpDBCache) :
    CdpOp → Option IneryCdpDBCache
  | .new cdp => some (st.newCDP acc ratio cdp).2
  | .update oldCDP newCDP => (st.updateCDP acc ratio oldCDP newCDP).map Prod.snd
  | .erase oldCDP cdp => some (st.eraseCDP acc ratio oldCDP cdp).2

end IneryCdpDBCache

end Inery
