import IneryPersistence.Price.Median
import IneryPersistence.Asset.Tokens
import IneryPersistence.Db.Containers

/-!
# The median prices of a block

* `PriceFeedData`: the values of the caches that the functions read, `addFeedCoinPair`, `eraseFeedCoinPair`,
  `setMedianPrices`, `setAsset`;
* `getMedianPrice`: the median of a window, or what the stored result says;
* `calcMedianPriceDetails`: the medians of all coin pairs whose base asset may be fed;
* `Active`: these coin pairs;
* **`find?_calcMedianPriceDetails`**: what the result says of a coin pair.
-/

namespace Inery

open KV

abbrev PriceDetailMap := SortedMap PriceCoinPair CMedianPriceDetail

/-- The constants that the functions read. -/
class PriceFeedConfig where
  kPriceFeedCoinPairSet : Finset PriceCoinPair
  PERM_PRICE_FEED : UInt64
  MIN_TOKEN_SYMBOL_LEN : ℕ
  MAX_TOKEN_SYMBOL_LEN : ℕ

export PriceFeedConfig (kPriceFeedCoinPairSet PERM_PRICE_FEED MIN_TOKEN_SYMBOL_LEN MAX_TOKEN_SYMBOL_LEN)

/-- What `GetAsset` returns, and the values of `price_feed_coin_pairs_cache` and `median_price_cache`. -/
structure PriceFeedData (Asset : Type) where
  getAsset : TokenSymbol → Option Asset
  feedCoinPairs : Finset PriceCoinPair
  medianPrices : PriceDetailMap

/-- `GetMedianPrice` of a cache whose `latest_median_prices` is given. -/
def getMedianPrice (latestMedianPrices : PriceDetailMap) (caches : List CoinPricePointMap) (blockHeight : ℕ)
    (slideWindow : UInt64) (coinPricePair : PriceCoinPair) : CMedianPriceDetail :=
  let priceDetail := computeBlockMedianPrice caches blockHeight slideWindow coinPricePair
  match latestMedianPrices.find? coinPricePair with
  | some latest =>
    if priceDetail.price = 0 then latest
    else if priceDetail.lastFeedHeight ≠ blockHeight then
      { priceDetail with lastFeedHeight := latest.lastFeedHeight }
    else priceDetail
  | none => priceDetail

section GetMedianPrice

variable {latestMedianPrices : PriceDetailMap} {caches : List CoinPricePointMap} {blockHeight : ℕ}
  {slideWindow : UInt64} {p : PriceCoinPair} {latest : CMedianPriceDetail}

theorem getMedianPrice_of_none (h : latestMedianPrices.find? p = none) :
    getMedianPrice latestMedianPrices caches blockHeight slideWindow p =
      computeBlockMedianPrice caches blockHeight slideWindow p := by
  rw [getMedianPrice, h]

theorem getMedianPrice_of_zero (h : latestMedianPrices.find? p = some latest)
    (hprice : (computeBlockMedianPrice caches blockHeight slideWindow p).price = 0) :
    getMedianPrice latestMedianPrices caches blockHeight slideWindow p = latest := by
  rw [getMedianPrice, h]
  exact if_pos hprice

/-- With a new price, the height is that of the block or the one that is stored. -/
theorem lastFeedHeight_getMedianPrice (h : latestMedianPrices.find? p = some latest)
    (hprice : (computeBlockMedianPrice caches blockHeight slideWindow p).price ≠ 0) :
    (getMedianPrice latestMedianPrices caches blockHeight slideWindow p).lastFeedHeight =
      if (computeBlockMedianPrice caches blockHeight slideWindow p).lastFeedHeight = blockHeight then blockHeight
      else latest.lastFeedHeight := by
  rw [getMedianPrice, h]
  simp only [if_neg hprice]
  split_ifs with hne hown
  · rfl
  · exact not_not.mp hne
  · exact absurd hown hne

end GetMedianPrice

theorem find?_foldl_medianPrices (f : PriceCoinPair → CMedianPriceDetail) (l : List PriceCoinPair)
    (m : PriceDetailMap) (p : PriceCoinPair) :
    (l.foldl (fun medianPrices item =>
      let medianPrice := f item
      if medianPrice.price = 0 then medianPrices else medianPrices.insert item medianPrice) m).find? p =
      if p ∈ l ∧ (f p).price ≠ 0 then some (f p) else m.find? p := by
  induction l generalizing m with
  | nil => simp
  | cons q l ih =>
    rw [List.foldl_cons, ih]
    by_cases hp : p = q
    · subst hp
      by_cases hd : (f p).price = 0
      · simp [hd]
      · simp [hd]
    · by_cases hd : (f q).price = 0
      · simp [hd, hp]
      · simp [hd, hp, SortedMap.find?_insert_of_ne]

namespace PriceFeedData

variable {Asset : Type} [CAsset Asset] [PriceFeedConfig]

/-- `GetFeedCoinPairs`; `none` if it returns false. -/
def getFeedCoinPairs (data : PriceFeedData Asset) : Option (Finset PriceCoinPair) :=
  live (some data.feedCoinPairs)

/-- `AddFeedCoinPair`. -/
def addFeedCoinPair (data : PriceFeedData Asset) (coinPair : PriceCoinPair) : PriceFeedData Asset :=
  let coinPairs := data.getFeedCoinPairs.getD ∅
  if coinPair ∈ coinPairs then data else { data with feedCoinPairs := insert coinPair coinPairs }

/-- `EraseFeedCoinPair`. -/
def eraseFeedCoinPair (data : PriceFeedData Asset) (coinPair : PriceCoinPair) : PriceFeedData Asset :=
  if coinPair ∈ kPriceFeedCoinPairSet then data
  else
    let coins := data.getFeedCoinPairs.getD ∅
    if coinPair ∈ coins then { data with feedCoinPairs := coins.erase coinPair } else data

/-- `SetMedianPrices`. -/
def setMedianPrices (data : PriceFeedData Asset) (medianPrices : PriceDetailMap) : PriceFeedData Asset :=
  { data with medianPrices := medianPrices }

/-- `CAssetDbCache::SetAsset`, which also changes permissions. -/
def setAsset [DbUtil Asset] (data : PriceFeedData Asset) (asset : Asset) : PriceFeedData Asset :=
  { data with getAsset := Function.update data.getAsset (assetSymbol asset) (live (some asset)) }

/-- `CAssetDbCache::CheckAsset`. -/
def checkAsset (data : PriceFeedData Asset) (symbol : TokenSymbol) : Option Asset :=
  if symbol.length < MIN_TOKEN_SYMBOL_LEN ∨ MAX_TOKEN_SYMBOL_LEN < symbol.length then none
  else data.getAsset symbol

/-- The loop that takes out the coin pairs whose base asset may not be fed; `none` if one does not exist. -/
def checkBaseAssets (data : PriceFeedData Asset) : List PriceCoinPair → Option (List PriceCoinPair)
  | [] => some []
  | coinPair :: coinPairs => (data.checkAsset (ofLex coinPair).1).bind fun asset =>
    (checkBaseAssets data coinPairs).map fun coinPairSet =>
      if hasPerms asset PERM_PRICE_FEED then coinPair :: coinPairSet else coinPairSet

/-- `CalcMedianPriceDetails`; `none` if it returns false. -/
def calcMedianPriceDetails (data : PriceFeedData Asset) (caches : List CoinPricePointMap) (blockHeight : ℕ)
    (slideWindow : UInt64) : Option PriceDetailMap :=
  let coinPairSet := data.getFeedCoinPairs.getD ∅
  (data.checkBaseAssets coinPairSet.sort).map fun coinPairSet =>
    coinPairSet.foldl (fun medianPrices item =>
      let medianPrice := getMedianPrice data.medianPrices caches blockHeight slideWindow item
      if medianPrice.price = 0 then medianPrices else medianPrices.insert item medianPrice) ∅

/-- The base asset of every coin pair exists. -/
def AssetsExist (data : PriceFeedData Asset) : Prop :=
  ∀ p ∈ data.feedCoinPairs, (data.checkAsset (ofLex p).1).isSome

/-- The coin pair is in the set, and its base asset has the permission. -/
def Active (data : PriceFeedData Asset) (p : PriceCoinPair) : Prop :=
  p ∈ data.feedCoinPairs ∧ ∃ asset ∈ data.checkAsset (ofLex p).1, hasPerms asset PERM_PRICE_FEED

variable {data : PriceFeedData Asset}

theorem isSome_checkBaseAssets_iff {l : List PriceCoinPair} :
    (data.checkBaseAssets l).isSome ↔ ∀ p ∈ l, (data.checkAsset (ofLex p).1).isSome := by
  induction l with
  | nil => simp [checkBaseAssets]
  | cons p l ih =>
    rw [List.forall_mem_cons, ← ih, checkBaseAssets]
    cases data.checkAsset (ofLex p).1 with
    | none => simp
    | some asset => simp

theorem mem_checkBaseAssets {l kept : List PriceCoinPair} (h : data.checkBaseAssets l = some kept)
    (p : PriceCoinPair) :
    p ∈ kept ↔ p ∈ l ∧ ∃ asset ∈ data.checkAsset (ofLex p).1, hasPerms asset PERM_PRICE_FEED := by
  induction l generalizing kept with
  | nil =>
    obtain rfl := Option.some.inj h
    simp
  | cons q l ih =>
    obtain ⟨asset, hasset, h⟩ := Option.bind_eq_some_iff.mp h
    obtain ⟨kept, hkept, rfl⟩ := Option.map_eq_some_iff.mp h
    have hq : (∃ asset' ∈ data.checkAsset (ofLex q).1, hasPerms asset' PERM_PRICE_FEED) ↔
        hasPerms asset PERM_PRICE_FEED := by
      rw [hasset]
      simp
    rw [List.mem_cons, or_and_right, ← ih hkept]
    split_ifs with hperm
    · rw [List.mem_cons]
      refine or_congr_left (iff_self_and.mpr fun hp => ?_)
      rw [hp]
      exact hq.mpr hperm
    · refine (or_iff_right ?_).symm
      rintro ⟨rfl, hp⟩
      exact hperm (hq.mp hp)

/-- **The result has a price of a coin pair** exactly if the coin pair is active and its price is not 0. -/
theorem find?_calcMedianPriceDetails {caches : List CoinPricePointMap} {blockHeight : ℕ} {w : UInt64}
    {medianPrices : PriceDetailMap}
    (h : data.calcMedianPriceDetails caches blockHeight w = some medianPrices) {p : PriceCoinPair}
    {detail : CMedianPriceDetail} : medianPrices.find? p = some detail ↔
      data.Active p ∧ detail.price ≠ 0 ∧ getMedianPrice data.medianPrices caches blockHeight w p = detail := by
  obtain ⟨kept, hkept, rfl⟩ := Option.map_eq_some_iff.mp h
  have hset : data.getFeedCoinPairs.getD ∅ = data.feedCoinPairs := getD_live_some _
  have hmem := mem_checkBaseAssets hkept p
  rw [hset, Finset.mem_sort] at hmem
  rw [find?_foldl_medianPrices, Active, ← hmem]
  split_ifs with hp
  · rw [Option.some.injEq]
    constructor
    · rintro rfl
      exact ⟨hp.1, hp.2, rfl⟩
    · exact fun hd => hd.2.2
  · refine iff_of_false (by simp) ?_
    rintro ⟨hactive, hprice, rfl⟩
    exact hp ⟨hactive, hprice⟩

theorem isSome_calcMedianPriceDetails_iff {caches : List CoinPricePointMap} {blockHeight : ℕ} {w : UInt64} :
    (data.calcMedianPriceDetails caches blockHeight w).isSome ↔ data.AssetsExist := by
  rw [calcMedianPriceDetails, Option.isSome_map, isSome_checkBaseAssets_iff, getFeedCoinPairs, getD_live_some]
  simp only [Finset.mem_sort, AssetsExist]

end PriceFeedData

end Inery
