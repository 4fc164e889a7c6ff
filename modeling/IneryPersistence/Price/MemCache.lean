import IneryPersistence.Cdp.Keys

/-!
# The price point cache

* `CoinPricePointMap`, `userPricesAt`: prices by coin pair, height and user;
* `addPrice`, `addPriceByBlock`, `deleteBlockFromCache`, `batchWrite`, `getBlockUserPrices`: the
  functions of `IneryPricePointMemCache`; a cache is given by its map and the maps below it;
* **`userPricesAt_deleteBlockFromCache`**, **`userPricesAt_batchWrite`**, **`find?_getBlockUserPrices`**:
  what they do at each coin pair and height.
-/

namespace Inery

open KV

/-- A base symbol and a quote symbol. -/
abbrev PriceCoinPair := TokenSymbol ×ₗ TokenSymbol

/-- A height; those of blocks are below `2 ^ 31`, where no cast between `int32_t` and `uint32_t` changes
them. -/
abbrev HeightType := ℕ

/-- The prices that users fed. -/
abbrev UserPrices := SortedMap IneryRegID UInt64

instance : DbUtil UserPrices where
  dflt := ∅
  isEmpty prices := prices.entries.isEmpty
  setEmpty _ := ∅

abbrev BlockUserPriceMap := SortedMap HeightType UserPrices

structure IneryConsecutiveBlockPrice where
  mapBlockUserPrices : BlockUserPriceMap

structure IneryPricePoint where
  coinPricePair : PriceCoinPair
  price : UInt64

namespace IneryConsecutiveBlockPrice

/-- `AddUserPrice`. -/
def addUserPrice (cbp : IneryConsecutiveBlockPrice) (blockHeight : HeightType) (regId : IneryRegID)
    (price : UInt64) : IneryConsecutiveBlockPrice :=
  ⟨cbp.mapBlockUserPrices.insert blockHeight
    (((cbp.mapBlockUserPrices.find? blockHeight).getD ∅).insert regId price)⟩

/-- `DeleteUserPrice`. -/
def deleteUserPrice (cbp : IneryConsecutiveBlockPrice) (blockHeight : HeightType) :
    IneryConsecutiveBlockPrice :=
  ⟨cbp.mapBlockUserPrices.insert blockHeight ∅⟩

/-- `ExistBlockUserPrice`. -/
def existBlockUserPrice (cbp : IneryConsecutiveBlockPrice) (blockHeight : HeightType)
    (regId : IneryRegID) : Bool :=
  match cbp.mapBlockUserPrices.find? blockHeight with
  | some prices => (prices.find? regId).isSome
  | none => false

end IneryConsecutiveBlockPrice

abbrev CoinPricePointMap := SortedMap PriceCoinPair IneryConsecutiveBlockPrice

/-- `mapCoinPricePointCache[coinPair]`, changed by `f`; a missing entry is made first. -/
def modify (m : CoinPricePointMap) (coinPair : PriceCoinPair)
    (f : IneryConsecutiveBlockPrice → IneryConsecutiveBlockPrice) : CoinPricePointMap :=
  m.insert coinPair (f ((m.find? coinPair).getD ⟨∅⟩))

/-- The prices a map holds for a coin pair at a height; the empty ones mark a deletion. -/
def userPricesAt (m : CoinPricePointMap) (coinPair : PriceCoinPair) (height : HeightType) :
    Option UserPrices :=
  (m.find? coinPair).bind fun cbp => cbp.mapBlockUserPrices.find? height

theorem find?_getD (m : CoinPricePointMap) (p : PriceCoinPair) (h : HeightType) :
    ((m.find? p).getD ⟨∅⟩).mapBlockUserPrices.find? h = userPricesAt m p h := by
  rw [userPricesAt]
  cases m.find? p <;> rfl

theorem userPricesAt_modify (m : CoinPricePointMap) (p : PriceCoinPair)
    (f : IneryConsecutiveBlockPrice → IneryConsecutiveBlockPrice) (p' : PriceCoinPair) (h : HeightType) :
    userPricesAt (modify m p f) p' h =
      if p' = p then (f ((m.find? p).getD ⟨∅⟩)).mapBlockUserPrices.find? h else userPricesAt m p' h := by
  unfold userPricesAt modify
  rw [SortedMap.find?_insert]
  split_ifs <;> rfl

/-! ## Prices of a block -/

/-- `IneryPricePointMemCache::ExistBlockUserPrice`, for a cache and the caches below it. -/
def existBlockUserPrice (blockHeight : HeightType) (regId : IneryRegID) (coinPricePair : PriceCoinPair) :
    List CoinPricePointMap → Bool
  | [] => false
  | m :: bases =>
    (match m.find? coinPricePair with
      | some cbp => cbp.existBlockUserPrice blockHeight regId
      | none => false) || existBlockUserPrice blockHeight regId coinPricePair bases

/-- `AddPrice`: the first price that exists already ends it. -/
def addPrice (bases : List CoinPricePointMap) (blockHeight : HeightType) (regId : IneryRegID) :
    List IneryPricePoint → CoinPricePointMap → Bool × CoinPricePointMap
  | [], m => (true, m)
  | pp :: pps, m =>
    if existBlockUserPrice blockHeight regId pp.coinPricePair (m :: bases) then (false, m)
    else addPrice bases blockHeight regId pps
      (modify m pp.coinPricePair fun cbp => cbp.addUserPrice blockHeight regId pp.price)

/-- A transaction, as far as the cache reads it. -/
inductive CBaseTx
  | priceFeed (txUid : IneryRegID) (pricePoints : List IneryPricePoint)
  | other

/-- A block, as far as the cache reads it. -/
structure FeedBlock where
  height : HeightType
  vptx : List CBaseTx

/-- The loop of `AddPriceByBlock`, which ignores what `AddPrice` returns. -/
def addPriceFeeds (bases : List CoinPricePointMap) (height : HeightType) :
    List CBaseTx → CoinPricePointMap → CoinPricePointMap
  | .priceFeed txUid pricePoints :: vptx, m =>
    addPriceFeeds bases height vptx (addPrice bases height txUid pricePoints m).2
  | _, m => m

/-- `AddPriceByBlock`. -/
def addPriceByBlock (bases : List CoinPricePointMap) (block : FeedBlock) (m : CoinPricePointMap) :
    CoinPricePointMap :=
  if block.vptx.length < 3 then m else addPriceFeeds bases block.height (block.vptx.drop 1) m

/-- The coin pairs of the price feeds that a block begins with. -/
def deletingSet : List CBaseTx → List PriceCoinPair
  | .priceFeed _ pricePoints :: vptx => pricePoints.map IneryPricePoint.coinPricePair ++ deletingSet vptx
  | _ => []

/-- `DeleteBlockFromCache`: first the coin pairs of the block, then all that the map holds. -/
def deleteBlockFromCache (block : FeedBlock) (m : CoinPricePointMap) : CoinPricePointMap :=
  let m := (deletingSet (block.vptx.drop 1)).foldl
    (fun m coinPair => modify m coinPair fun cbp => cbp.deleteUserPrice block.height) m
  m.entries.foldl (fun m item => modify m item.1 fun cbp => cbp.deleteUserPrice block.height) m

/-! ## Layers -/

/-- `std::map::emplace`, which keeps a price that is there. -/
def emplace (prices : UserPrices) (regId : IneryRegID) (price : UInt64) : UserPrices :=
  match prices.find? regId with
  | some _ => prices
  | none => prices.insert regId price

/-- The body of the loop over the heights in `BatchWrite`. -/
def batchWritePrices (coinPair : PriceCoinPair) (m : CoinPricePointMap)
    (userPrice : HeightType × UserPrices) : CoinPricePointMap :=
  if isEmpty userPrice.2 then
    modify m coinPair fun cbp => ⟨cbp.mapBlockUserPrices.erase userPrice.1⟩
  else userPrice.2.entries.foldl (fun m priceItem => modify m coinPair fun cbp =>
    ⟨cbp.mapBlockUserPrices.insert userPrice.1
      (emplace ((cbp.mapBlockUserPrices.find? userPrice.1).getD ∅) priceItem.1 priceItem.2)⟩) m

/-- `BatchWrite`. -/
def batchWrite (m mapCoinPricePointCacheIn : CoinPricePointMap) : CoinPricePointMap :=
  mapCoinPricePointCacheIn.entries.foldl (fun m item =>
    item.2.mapBlockUserPrices.entries.foldl (batchWritePrices item.1) m) m

/-- The body of the loop of `GetBlockUserPrices`, which collects the deleted heights and the prices. -/
def readPrices (st : List HeightType × BlockUserPriceMap) (item : HeightType × UserPrices) :
    List HeightType × BlockUserPriceMap :=
  if isEmpty item.2 then (item.1 :: st.1, st.2)
  else if item.1 ∈ st.1 ∨ (st.2.find? item.1).isSome then st
  else (st.1, st.2.insert item.1 item.2)

/-- `GetBlockUserPrices`, from one cache on down. -/
def getBlockUserPricesFrom (coinPricePair : PriceCoinPair) :
    List CoinPricePointMap → List HeightType × BlockUserPriceMap → BlockUserPriceMap
  | [], st => st.2
  | m :: bases, st => getBlockUserPricesFrom coinPricePair bases
      (match m.find? coinPricePair with
        | some cbp => cbp.mapBlockUserPrices.entries.foldl readPrices st
        | none => st)

/-- `GetBlockUserPrices`. -/
def getBlockUserPrices (caches : List CoinPricePointMap) (coinPricePair : PriceCoinPair) :
    BlockUserPriceMap :=
  getBlockUserPricesFrom coinPricePair caches ([], ∅)

/-! ## What the functions do at one coin pair and height -/

@[simp] theorem userPricesAt_empty (p : PriceCoinPair) (h : HeightType) : userPricesAt ∅ p h = none := rfl

theorem isEmpty_iff_entries (u : UserPrices) : isEmpty u = true ↔ u.entries = [] := List.isEmpty_iff

theorem userPricesAt_deleteUserPrice (m : CoinPricePointMap) (p : PriceCoinPair) (height : HeightType)
    (p' : PriceCoinPair) (h : HeightType) :
    userPricesAt (modify m p fun cbp => cbp.deleteUserPrice height) p' h =
      if h = height ∧ p' = p then some ∅ else userPricesAt m p' h := by
  rw [userPricesAt_modify]
  by_cases hp : p' = p
  · rw [if_pos hp, IneryConsecutiveBlockPrice.deleteUserPrice, SortedMap.find?_insert, find?_getD, hp]
    simp
  · rw [if_neg hp, if_neg fun hh => hp hh.2]

theorem userPricesAt_foldl_deleteUserPrice {A : Type} (pairOf : A → PriceCoinPair) (l : List A)
    (m : CoinPricePointMap) (height : HeightType) (p : PriceCoinPair) (h : HeightType) :
    userPricesAt (l.foldl (fun m a => modify m (pairOf a) fun cbp => cbp.deleteUserPrice height) m) p h =
      if h = height ∧ p ∈ l.map pairOf then some ∅ else userPricesAt m p h := by
  induction l generalizing m with
  | nil => simp
  | cons a l ih =>
    rw [List.foldl_cons, ih, userPricesAt_deleteUserPrice, List.map_cons]
    by_cases hh : h = height
    · by_cases hp : p = pairOf a
      · simp [hh, hp]
      · simp [hh, hp]
    · simp [hh]

theorem mem_map_fst_iff (m : CoinPricePointMap) (p : PriceCoinPair) :
    p ∈ m.entries.map Prod.fst ↔ (m.find? p).isSome := by
  rw [List.mem_map, Option.isSome_iff_exists]
  constructor
  · rintro ⟨⟨p, cbp⟩, hmem, rfl⟩
    exact ⟨cbp, SortedMap.find?_eq_some_iff.mpr hmem⟩
  · rintro ⟨cbp, hcbp⟩
    exact ⟨(p, cbp), SortedMap.find?_eq_some_iff.mp hcbp, rfl⟩

theorem isSome_find?_foldl_modify (f : IneryConsecutiveBlockPrice → IneryConsecutiveBlockPrice)
    (l : List PriceCoinPair) (m : CoinPricePointMap) (p : PriceCoinPair) :
    ((l.foldl (fun m a => modify m a f) m).find? p).isSome ↔ p ∈ l ∨ (m.find? p).isSome := by
  induction l generalizing m with
  | nil => simp
  | cons a l ih =>
    rw [List.foldl_cons, ih, modify, SortedMap.find?_insert, List.mem_cons]
    by_cases hp : p = a
    · simp [hp]
    · simp [hp]

/-- **`DeleteBlockFromCache` marks the height of the block**, at coin pairs of the block and of the map
and at no others. -/
theorem userPricesAt_deleteBlockFromCache (block : FeedBlock) (m : CoinPricePointMap)
    (p : PriceCoinPair) (h : HeightType) :
    userPricesAt (deleteBlockFromCache block m) p h =
      if h = block.height ∧ (p ∈ deletingSet (block.vptx.drop 1) ∨ (m.find? p).isSome) then some ∅
      else userPricesAt m p h := by
  rw [deleteBlockFromCache, userPricesAt_foldl_deleteUserPrice]
  simp only [mem_map_fst_iff, isSome_find?_foldl_modify]
  rw [userPricesAt_foldl_deleteUserPrice fun a => a, List.map_id']
  split_ifs with h₁ h₂
  · rfl
  · exact absurd ⟨h₂.1, .inl h₂.2⟩ h₁
  · rfl

/-! ## Writing one layer into another -/

theorem find?_emplace (prices : UserPrices) (regId : IneryRegID) (price : UInt64) (r : IneryRegID) :
    (emplace prices regId price).find? r =
      if r = regId then (prices.find? r).or (some price) else prices.find? r := by
  rw [emplace]
  cases hf : prices.find? regId with
  | none =>
    rw [SortedMap.find?_insert]
    split_ifs with hr
    · rw [hr, hf]
      rfl
    · rfl
  | some price' =>
    split_ifs with hr
    · rw [hr, hf]
      rfl
    · rfl

/-- The prices of `prices'` added to those of `prices`, which stay. -/
def emplaceAll (prices prices' : UserPrices) : UserPrices :=
  prices'.entries.foldl (fun prices priceItem => emplace prices priceItem.1 priceItem.2) prices

theorem find?_emplaceAll (prices prices' : UserPrices) (r : IneryRegID) :
    (emplaceAll prices prices').find? r = (prices.find? r).or (prices'.find? r) := by
  rw [emplaceAll, SortedMap.slot_foldl _ SortedMap.find? (fun o price => o.or (some price))
    (fun prices e => (find?_emplace prices e.1 e.2 e.1).trans (if_pos rfl))
    (fun prices e r hr => (find?_emplace prices e.1 e.2 r).trans (if_neg hr)) prices'.ascending prices r]
  change (prices'.find? r).elim _ _ = _
  cases prices'.find? r with
  | none => simp
  | some price => rfl

/-- The prices that `BatchWrite` leaves where `old` was, given `prices`. -/
def written (old : Option UserPrices) (prices : UserPrices) : Option UserPrices :=
  if isEmpty prices then none else some (emplaceAll (old.getD ∅) prices)

theorem userPricesAt_foldl_emplace (coinPair : PriceCoinPair) (height : HeightType)
    (l : List (IneryRegID × UInt64)) (m : CoinPricePointMap) (p : PriceCoinPair) (h : HeightType) :
    userPricesAt (l.foldl (fun m priceItem => modify m coinPair fun cbp =>
      ⟨cbp.mapBlockUserPrices.insert height
        (emplace ((cbp.mapBlockUserPrices.find? height).getD ∅) priceItem.1 priceItem.2)⟩) m) p h =
      if l ≠ [] ∧ h = height ∧ p = coinPair then
        some (l.foldl (fun prices priceItem => emplace prices priceItem.1 priceItem.2)
          ((userPricesAt m p h).getD ∅))
      else userPricesAt m p h := by
  induction l generalizing m with
  | nil => simp
  | cons e l ih =>
    rw [List.foldl_cons, ih, userPricesAt_modify]
    by_cases hp : p = coinPair
    · rw [if_pos hp, SortedMap.find?_insert, find?_getD, find?_getD, ← hp]
      by_cases hh : h = height
      · rw [if_pos hh, ← hh]
        cases l <;> simp
      · simp [hh]
    · simp [hp]

theorem userPricesAt_batchWritePrices (coinPair : PriceCoinPair) (m : CoinPricePointMap)
    (userPrice : HeightType × UserPrices) (p : PriceCoinPair) (h : HeightType) :
    userPricesAt (batchWritePrices coinPair m userPrice) p h =
      if h = userPrice.1 then
        if p = coinPair then written (userPricesAt m p h) userPrice.2 else userPricesAt m p h
      else userPricesAt m p h := by
  rw [batchWritePrices]
  split_ifs with he hh hp hh hp
  · rw [userPricesAt_modify, if_pos hp, SortedMap.find?_erase, if_pos hh, written, if_pos he]
  · rw [userPricesAt_modify, if_neg hp]
  · rw [userPricesAt_modify, SortedMap.find?_erase, if_neg hh, find?_getD]
    split_ifs with hp
    · rw [hp]
    · rfl
  · have hne : userPrice.2.entries ≠ [] := fun hnil => he ((isEmpty_iff_entries _).mpr hnil)
    rw [userPricesAt_foldl_emplace, if_pos ⟨hne, hh, hp⟩, written, if_neg he]
    rfl
  · rw [userPricesAt_foldl_emplace, if_neg fun hn => hp hn.2.2]
  · rw [userPricesAt_foldl_emplace, if_neg fun hn => hh hn.2.1]

/-- **`BatchWrite` drops what is marked**, adds what is new, and keeps the rest. -/
theorem userPricesAt_batchWrite (m m' : CoinPricePointMap) (p : PriceCoinPair) (h : HeightType) :
    userPricesAt (batchWrite m m') p h =
      (userPricesAt m' p h).elim (userPricesAt m p h) (written (userPricesAt m p h)) := by
  have hinner : ∀ (s : CoinPricePointMap) (e : PriceCoinPair × IneryConsecutiveBlockPrice)
      (q : PriceCoinPair) (h : HeightType),
      userPricesAt (e.2.mapBlockUserPrices.entries.foldl (batchWritePrices e.1) s) q h =
        (e.2.mapBlockUserPrices.find? h).elim (userPricesAt s q h) fun prices =>
          if q = e.1 then written (userPricesAt s q h) prices else userPricesAt s q h := fun s e q h =>
    SortedMap.slot_foldl _ (fun s h => userPricesAt s q h)
      (fun o prices => if q = e.1 then written o prices else o)
      (fun s e' => (userPricesAt_batchWritePrices e.1 s e' q e'.1).trans (if_pos rfl))
      (fun s e' h hh => (userPricesAt_batchWritePrices e.1 s e' q h).trans (if_neg hh))
      e.2.mapBlockUserPrices.ascending s h
  rw [batchWrite, SortedMap.slot_foldl _ userPricesAt
    (fun o cbp h => (cbp.mapBlockUserPrices.find? h).elim (o h) (written (o h)))
    (fun s e => ?_) (fun s e q hq => ?_) m'.ascending m p]
  · rw [userPricesAt, SortedMap.find?]
    cases lookup p m'.entries <;> rfl
  · funext h
    rw [hinner]
    simp
  · funext h
    rw [hinner]
    cases e.2.mapBlockUserPrices.find? h <;> simp [hq]

/-! ## Reading -/

/-- What the first of the caches that knows the height of a coin pair holds there. -/
def topPrices (coinPair : PriceCoinPair) (height : HeightType) : List CoinPricePointMap → Option UserPrices
  | [] => none
  | m :: bases => (userPricesAt m coinPair height).or (topPrices coinPair height bases)

/-- What the loop of `GetBlockUserPrices` knows of a height. -/
def seen (st : List HeightType × BlockUserPriceMap) (h : HeightType) : Bool × Option UserPrices :=
  (decide (h ∈ st.1), st.2.find? h)

/-- The change that one entry makes to it. -/
def see (x : Bool × Option UserPrices) (prices : UserPrices) : Bool × Option UserPrices :=
  if isEmpty prices then (true, x.2) else if x.1 ∨ x.2.isSome then x else (x.1, some prices)

theorem seen_readPrices (st : List HeightType × BlockUserPriceMap) (item : HeightType × UserPrices) :
    seen (readPrices st item) item.1 = see (seen st item.1) item.2 := by
  rw [readPrices, see]
  split_ifs with he h₁ h₂ h₂
  · simp [seen]
  · rfl
  · exact absurd (by simpa [seen] using h₁) h₂
  · exact absurd (by simpa [seen] using h₂) h₁
  · simp [seen]

theorem seen_readPrices_of_ne (st : List HeightType × BlockUserPriceMap) (item : HeightType × UserPrices)
    {h : HeightType} (hne : h ≠ item.1) : seen (readPrices st item) h = seen st h := by
  rw [readPrices]
  split_ifs
  · simp [seen, hne]
  · rfl
  · simp [seen, SortedMap.find?_insert_of_ne _ hne]

theorem find?_getBlockUserPricesFrom (p : PriceCoinPair) (caches : List CoinPricePointMap)
    (st : List HeightType × BlockUserPriceMap) (h : HeightType) :
    (getBlockUserPricesFrom p caches st).find? h =
      (seen st h).2.or (if (seen st h).1 then none else live (topPrices p h caches)) := by
  induction caches generalizing st with
  | nil => simp [getBlockUserPricesFrom, topPrices, seen]
  | cons m bases ih =>
    have hseen : seen (match m.find? p with
        | some cbp => cbp.mapBlockUserPrices.entries.foldl readPrices st
        | none => st) h = (userPricesAt m p h).elim (seen st h) (see (seen st h)) := by
      rw [userPricesAt]
      cases m.find? p with
      | none => rfl
      | some cbp =>
        exact SortedMap.slot_foldl _ seen see seen_readPrices
          (fun st item h hne => seen_readPrices_of_ne st item hne) cbp.mapBlockUserPrices.ascending st h
    rw [getBlockUserPricesFrom, ih, hseen, topPrices]
    obtain ⟨expired, o⟩ := seen st h
    cases userPricesAt m p h with
    | none => rfl
    | some prices =>
      cases he : isEmpty prices with
      | true => simp [see, he, live_of_isEmpty he]
      | false =>
        cases expired <;> cases o <;> simp [see, he, live_of_not_isEmpty he]

/-- **`GetBlockUserPrices` gives the topmost prices of each height**, where they are not a deletion. -/
theorem find?_getBlockUserPrices (caches : List CoinPricePointMap) (p : PriceCoinPair) (h : HeightType) :
    (getBlockUserPrices caches p).find? h = live (topPrices p h caches) := by
  rw [getBlockUserPrices, find?_getBlockUserPricesFrom]
  rfl

end Inery
