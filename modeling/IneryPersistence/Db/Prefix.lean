import IneryPersistence.Db.Basics

/-!
# Database names and key prefixes

* `DBNameType`, `PrefixType`, `getKeyPrefix`, `getDbNameEnumByPrefix`: the tables of `dbconf.h`;
* `parseKeyPrefixType`, `genDbKey`, `parseDbKey`;
* **`getKeyPrefix_incomparable`**: no prefix in use begins another, so that records of different
  prefixes never meet (`getKeyPrefix_append_ne`), and **`parseKeyPrefixType_getKeyPrefix`**.
-/

namespace Inery

open KV

/-- The databases (`DB_NAME_LIST`). -/
inductive DBNameType
  | sysparam | account | asset | block | contract | delegate | cdp | closedcdp | dex | log
  | receipt | utxo | sysgovern | pricefeed | axc | dbNameCount
deriving DecidableEq, Repr

/-- The record types (`DBK_PREFIX_LIST`). -/
inductive PrefixType
  | empty | sysParam | producerFee | cdpParam | cdpInterestParams | totalBpsSize
  | newTotalBpsSize | sysGovern | govnProp | govnApprovalList | axcoutProposalTxuid | asset
  | axcCoinPeertoself | axcCoinSelftopeer | blockIndex | blockfileNumInfo | lastBlockfile
  | reindex | finalityBlock | flag | bestBlockhash | txidDiskindex | blockInflatedReward
  | regidKeyid | keyidAccount | contractDef | contractData | contractAccount | contractTraces
  | vote | lastVoteHeight | pendingDelegates | activeDelegates | regidVote | cdp | cdpInr
  | userCdp | cdpRatioIndex | cdpHeightIndex | cdpGlobalData | closedCdpTx | closedTxCdp
  | dexActiveOrder | dexBlockOrders | dexOperatorLastId | dexOperatorDetail | dexOperatorOwnerMap
  | dexOperatorTradePair | dexQuoteCoinSymbol | txExecuteFail | txReceipt | blockReceipt | txUtxo
  | utxoPwsdprf | medianPrices | priceFeedCoinPairs | priceFeeders | axcSwapIn | prefixCount
deriving DecidableEq, Repr

open PrefixType in
/-- The type, name and database of every prefix, in the order of `DBK_PREFIX_LIST`. -/
def prefixList : List (PrefixType × String × DBNameType) :=
  [(empty, "", .dbNameCount), (sysParam, "sysp", .sysparam), (producerFee, "minf", .sysparam),
   (cdpParam, "cdpp", .sysparam), (cdpInterestParams, "cips", .sysparam),
   (totalBpsSize, "bpsi", .sysparam), (newTotalBpsSize, "nbps", .sysparam),
   (sysGovern, "govn", .sysgovern), (govnProp, "pgvn", .sysgovern),
   (govnApprovalList, "galt", .sysgovern), (axcoutProposalTxuid, "aptu", .sysgovern),
   (asset, "asst", .asset), (axcCoinPeertoself, "acps", .asset),
   (axcCoinSelftopeer, "acsp", .asset), (blockIndex, "bidx", .block),
   (blockfileNumInfo, "bfni", .block), (lastBlockfile, "ltbf", .block),
   (reindex, "ridx", .block), (finalityBlock, "finb", .block), (flag, "flag", .block),
   (bestBlockhash, "bbkh", .block), (txidDiskindex, "tidx", .block),
   (blockInflatedReward, "bird", .block), (regidKeyid, "rkey", .account),
   (keyidAccount, "idac", .account), (contractDef, "ucon", .contract),
   (contractData, "cdat", .contract), (contractAccount, "cacc", .contract),
   (contractTraces, "ctrs", .contract), (vote, "vote", .delegate),
   (lastVoteHeight, "lvht", .delegate), (pendingDelegates, "pdds", .delegate),
   (activeDelegates, "atds", .delegate), (regidVote, "ridv", .delegate), (cdp, "cid", .cdp),
   (cdpInr, "cbcn", .cdp), (userCdp, "ucdp", .cdp), (cdpRatioIndex, "crid", .cdp),
   (cdpHeightIndex, "chid", .cdp), (cdpGlobalData, "cgdt", .cdp),
   (closedCdpTx, "ctx", .closedcdp), (closedTxCdp, "txc", .closedcdp),
   (dexActiveOrder, "dato", .dex), (dexBlockOrders, "dbos", .dex),
   (dexOperatorLastId, "doli", .dex), (dexOperatorDetail, "dode", .dex),
   (dexOperatorOwnerMap, "doom", .dex), (dexOperatorTradePair, "dotp", .dex),
   (dexQuoteCoinSymbol, "dqcs", .dex), (txExecuteFail, "txef", .log),
   (txReceipt, "txrc", .receipt), (blockReceipt, "bkrc", .receipt), (txUtxo, "utxo", .utxo),
   (utxoPwsdprf, "pwdp", .utxo), (medianPrices, "mdps", .pricefeed),
   (priceFeedCoinPairs, "pfcp", .pricefeed), (priceFeeders, "pfdr", .pricefeed),
   (axcSwapIn, "axci", .axc), (prefixCount, "", .dbNameCount)]

namespace PrefixType

/-- The row of a prefix type in `prefixList`. -/
def row (p : PrefixType) : PrefixType × String × DBNameType :=
  (prefixList.find? fun r => r.1 = p).getD (.empty, "", .dbNameCount)

/-- A prefix type that names records: every one but the two ends of the enumeration. -/
def InUse (p : PrefixType) : Prop := p ≠ .empty ∧ p ≠ .prefixCount

instance (p : PrefixType) : Decidable p.InUse := by unfold InUse; infer_instance

end PrefixType

/-- `dbk::GetKeyPrefix`. -/
def getKeyPrefix (p : PrefixType) : Bytes := bytesOf p.row.2.1

/-- `dbk::GetDbNameEnumByPrefix`. -/
def getDbNameEnumByPrefix (p : PrefixType) : DBNameType := p.row.2.2

/-- `dbk::ParseKeyPrefixType`: of two types with one name, `gPrefixNameMap` holds the first. -/
def parseKeyPrefixType (keyPrefix : Bytes) : PrefixType :=
  match prefixList.find? fun r => bytesOf r.2.1 = keyPrefix with
  | some r => r.1
  | none => .empty

/-- `dbk::GenDbKey`. -/
def genDbKey {K : Type} [Serial K] (p : PrefixType) (key : K) : Bytes := getKeyPrefix p ++ ser key

/-- `dbk::ParseDbKey`: `none` when the key cannot be read, `some none` for another prefix. -/
def parseDbKey {K : Type} [Serial K] (slice : Bytes) (p : PrefixType) : Option (Option K) :=
  if (getKeyPrefix p).isEmpty || !(getKeyPrefix p).isPrefixOf slice then some none
  else (unser (slice.drop (getKeyPrefix p).length)).map fun r => some r.1

theorem mem_prefixList (p : PrefixType) : p.row ∈ prefixList ∧ p.row.1 = p := by
  cases p <;> decide

theorem row_of_mem : ∀ r ∈ prefixList, r.1.row = r := by decide +kernel

theorem getKeyPrefix_ne_nil {p : PrefixType} (hp : p.InUse) : getKeyPrefix p ≠ [] := by
  obtain ⟨h1, h2⟩ := hp
  cases p <;> first | decide | exact absurd rfl h1 | exact absurd rfl h2

/-- **No prefix in use begins another one.** -/
theorem getKeyPrefix_incomparable {p q : PrefixType} (hp : p.InUse) (hq : q.InUse)
    (h : getKeyPrefix p <+: getKeyPrefix q) : p = q := by
  have key : ∀ r ∈ prefixList, ∀ r' ∈ prefixList, r.1.InUse → r'.1.InUse →
      (bytesOf r.2.1).isPrefixOf (bytesOf r'.2.1) = true → r.1 = r'.1 := by decide +kernel
  have := key _ (mem_prefixList p).1 _ (mem_prefixList q).1 (by rwa [(mem_prefixList p).2])
    (by rwa [(mem_prefixList q).2]) (List.isPrefixOf_iff_prefix.mpr h)
  rwa [(mem_prefixList p).2, (mem_prefixList q).2] at this

theorem getKeyPrefix_injective {p q : PrefixType} (hp : p.InUse) (hq : q.InUse)
    (h : getKeyPrefix p = getKeyPrefix q) : p = q :=
  getKeyPrefix_incomparable hp hq (h ▸ List.prefix_rfl)

/-- **The type of a prefix is found by its name.** -/
theorem parseKeyPrefixType_getKeyPrefix {p : PrefixType} (hp : p.InUse) :
    parseKeyPrefixType (getKeyPrefix p) = p := by
  unfold parseKeyPrefixType
  cases hf : prefixList.find? fun r => bytesOf r.2.1 = getKeyPrefix p with
  | none =>
    have := List.find?_eq_none.mp hf _ (mem_prefixList p).1
    simp [getKeyPrefix] at this
  | some r =>
    have hname : getKeyPrefix r.1 = getKeyPrefix p := by
      have := List.find?_some hf
      rw [getKeyPrefix, row_of_mem r (List.mem_of_find?_eq_some hf)]
      simpa using this
    have hr : r.1.InUse := by
      constructor <;> intro e <;> rw [e] at hname <;> exact getKeyPrefix_ne_nil hp hname.symm
    exact getKeyPrefix_injective hr hp hname

theorem getKeyPrefix_append_ne {p q : PrefixType} (hp : p.InUse) (hq : q.InUse) (hpq : p ≠ q)
    (s t : Bytes) : getKeyPrefix p ++ s ≠ getKeyPrefix q ++ t := by
  intro h
  have h1 : getKeyPrefix p <+: getKeyPrefix q ++ t := h ▸ List.prefix_append _ _
  rcases List.prefix_or_prefix_of_prefix h1 (List.prefix_append _ t) with hpre | hpre
  · exact hpq (getKeyPrefix_incomparable hp hq hpre)
  · exact hpq (getKeyPrefix_incomparable hq hp hpre).symm

theorem genDbKey_injective {K : Type} [Serial K] [LawfulSerial K] (p : PrefixType) :
    Function.Injective (genDbKey (K := K) p) := fun _ _ h =>
  ser_injective (List.append_cancel_left h)

theorem parseDbKey_genDbKey {K : Type} [Serial K] [LawfulSerial K] {p : PrefixType} (hp : p.InUse)
    (key : K) : parseDbKey (genDbKey p key) p = some (some key) := by
  have hne : (getKeyPrefix p).isEmpty = false := by simpa using getKeyPrefix_ne_nil hp
  have hpre : (getKeyPrefix p).isPrefixOf (genDbKey p key) = true :=
    List.isPrefixOf_iff_prefix.mpr (List.prefix_append _ _)
  simp [parseDbKey, hne, hpre]
  simp [genDbKey, LawfulSerial.unser_ser]

end Inery
