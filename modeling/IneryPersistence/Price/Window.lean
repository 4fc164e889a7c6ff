import IneryPersistence.Price.MemCache
import IneryPersistence.Lib.Runs

/-!
# The price window

* `Chain`, `readBlockFromDisk`, `releadBlocks`, `pushBlock`, `undoBlock`: the cache of the last blocks;
* `recordedAt`: the prices that `addPriceByBlock` records for the block at a height of a chain;
* `Holds`: a cache holds the prices of a chain at some heights and no others;
* **`holds_connectBlock`**, **`holds_disconnectBlock`**: the heights after a step;
* **`window_follows_chain`**: the heights of the window, after every run of connects and disconnects.
-/

namespace Inery

open KV

/-! ## Blocks in a cache -/

/-- The prices that `AddPriceByBlock` records for a block. -/
def recorded (block : FeedBlock) (coinPair : PriceCoinPair) : Option UserPrices :=
  userPricesAt (addPriceByBlock [] block ∅) coinPair block.height

theorem userPricesAt_addUserPrice (m : CoinPricePointMap) (q : PriceCoinPair) (height : HeightType)
    (regId : IneryRegID) (price : UInt64) (p : PriceCoinPair) (h : HeightType) :
    userPricesAt (modify m q fun cbp => cbp.addUserPrice height regId price) p h =
      if h = height ∧ p = q then some (((userPricesAt m p h).getD ∅).insert regId price)
      else userPricesAt m p h := by
  rw [userPricesAt_modify, IneryConsecutiveBlockPrice.addUserPrice]
  by_cases hp : p = q
  · rw [if_pos hp, SortedMap.find?_insert, find?_getD, find?_getD, hp]
    by_cases hh : h = height
    · simp [hh]
    · simp [hh]
  · rw [if_neg hp, if_neg fun hn => hp hn.2]

theorem userPricesAt_addPrice_of_ne (bases : List CoinPricePointMap) (height : HeightType)
    (regId : IneryRegID) (pps : List IneryPricePoint) (m : CoinPricePointMap) {p : PriceCoinPair}
    {h : HeightType} (hne : h ≠ height ∨ p ∉ pps.map IneryPricePoint.coinPricePair) :
    userPricesAt (addPrice bases height regId pps m).2 p h = userPricesAt m p h := by
  induction pps generalizing m with
  | nil => rfl
  | cons pp pps ih =>
    rw [List.map_cons, List.mem_cons, not_or] at hne
    rw [addPrice]
    split_ifs
    · rfl
    · rw [ih _ (hne.imp_right And.right), userPricesAt_addUserPrice, if_neg]
      rintro ⟨hh, hp⟩
      exact hne.elim (fun h' => h' hh) fun h' => h'.1 hp

theorem userPricesAt_addPriceFeeds_of_ne (bases : List CoinPricePointMap) (height : HeightType)
    (vptx : List CBaseTx) (m : CoinPricePointMap) {p : PriceCoinPair} {h : HeightType}
    (hne : h ≠ height ∨ p ∉ deletingSet vptx) :
    userPricesAt (addPriceFeeds bases height vptx m) p h = userPricesAt m p h := by
  induction vptx generalizing m with
  | nil => rfl
  | cons tx vptx ih =>
    cases tx with
    | other => rfl
    | priceFeed txUid pps =>
      rw [deletingSet, List.mem_append, not_or] at hne
      rw [addPriceFeeds, ih _ (hne.imp_right And.right),
        userPricesAt_addPrice_of_ne _ _ _ _ _ (hne.imp_right And.left)]

/-- **`AddPriceByBlock` adds nothing that `DeleteBlockFromCache` would not find.** -/
theorem userPricesAt_addPriceByBlock_of_ne (bases : List CoinPricePointMap) (block : FeedBlock)
    (m : CoinPricePointMap) {p : PriceCoinPair} {h : HeightType}
    (hne : h ≠ block.height ∨ p ∉ deletingSet (block.vptx.drop 1)) :
    userPricesAt (addPriceByBlock bases block m) p h = userPricesAt m p h := by
  rw [addPriceByBlock]
  split_ifs
  · rfl
  · exact userPricesAt_addPriceFeeds_of_ne _ _ _ _ hne

theorem recorded_eq_none {block : FeedBlock} {p : PriceCoinPair}
    (hp : p ∉ deletingSet (block.vptx.drop 1)) : recorded block p = none :=
  userPricesAt_addPriceByBlock_of_ne [] block ∅ (.inr hp)

/-- Two maps hold the same prices at a height. -/
def AgreeAt (height : HeightType) (m m' : CoinPricePointMap) : Prop :=
  ∀ p, userPricesAt m p height = userPricesAt m' p height

section Agree

variable {bases : List CoinPricePointMap} {height : HeightType}
  (hbases : ∀ b ∈ bases, AgreeAt height b ∅)

theorem existBlockUserPrice_cons (regId : IneryRegID) (p : PriceCoinPair) (m : CoinPricePointMap) :
    existBlockUserPrice height regId p (m :: bases) =
      (((userPricesAt m p height).bind fun prices => prices.find? regId).isSome ||
        existBlockUserPrice height regId p bases) := by
  rw [existBlockUserPrice, userPricesAt]
  cases m.find? p with
  | none => rfl
  | some cbp =>
    simp only [IneryConsecutiveBlockPrice.existBlockUserPrice, Option.bind_some]
    cases cbp.mapBlockUserPrices.find? height <;> rfl

include hbases in
theorem existBlockUserPrice_bases (regId : IneryRegID) (p : PriceCoinPair) :
    existBlockUserPrice height regId p bases = false := by
  induction bases with
  | nil => rfl
  | cons b bases ih =>
    rw [existBlockUserPrice_cons, hbases b List.mem_cons_self p,
      ih fun b' hb' => hbases b' (List.mem_cons_of_mem _ hb')]
    rfl

include hbases in
/-- **What is added at a height only depends on that height**, and not on caches without it. -/
theorem agreeAt_addPrice (regId : IneryRegID) (pps : List IneryPricePoint) {m m' : CoinPricePointMap}
    (h : AgreeAt height m m') :
    AgreeAt height (addPrice bases height regId pps m).2 (addPrice [] height regId pps m').2 := by
  induction pps generalizing m m' with
  | nil => exact h
  | cons pp pps ih =>
    have hexist : existBlockUserPrice height regId pp.coinPricePair (m :: bases) =
        existBlockUserPrice height regId pp.coinPricePair [m'] := by
      rw [existBlockUserPrice_cons, existBlockUserPrice_cons, existBlockUserPrice_bases hbases, h]
      rfl
    rw [addPrice, addPrice, hexist]
    split_ifs
    · exact h
    · refine ih fun p => ?_
      rw [userPricesAt_addUserPrice, userPricesAt_addUserPrice, h p]

include hbases in
theorem agreeAt_addPriceFeeds (vptx : List CBaseTx) {m m' : CoinPricePointMap} (h : AgreeAt height m m') :
    AgreeAt height (addPriceFeeds bases height vptx m) (addPriceFeeds [] height vptx m') := by
  induction vptx generalizing m m' with
  | nil => exact h
  | cons tx vptx ih =>
    cases tx with
    | other => exact h
    | priceFeed txUid pps =>
      rw [addPriceFeeds, addPriceFeeds]
      exact ih (agreeAt_addPrice hbases txUid pps h)

end Agree

theorem userPricesAt_addPriceByBlock {bases : List CoinPricePointMap} {block : FeedBlock}
    {m : CoinPricePointMap} (hbases : ∀ b ∈ bases, AgreeAt block.height b ∅)
    (hm : AgreeAt block.height m ∅) (p : PriceCoinPair) (h : HeightType) :
    userPricesAt (addPriceByBlock bases block m) p h =
      if h = block.height then recorded block p else userPricesAt m p h := by
  split_ifs with hh
  · rw [hh, recorded, addPriceByBlock, addPriceByBlock]
    split_ifs
    · exact hm p
    · exact agreeAt_addPriceFeeds hbases _ hm p
  · exact userPricesAt_addPriceByBlock_of_ne _ _ _ (.inl hh)

/-! ### What holds of all prices that are recorded -/

/-- All prices of a map meet `Q`. -/
def EveryPrices (Q : UserPrices → Prop) (m : CoinPricePointMap) : Prop :=
  ∀ p h, ∀ prices ∈ userPricesAt m p h, Q prices

theorem isEmpty_insert (prices : UserPrices) (regId : IneryRegID) (price : UInt64) :
    isEmpty (prices.insert regId price) = false := by
  by_contra he
  rw [Bool.not_eq_false, isEmpty_iff_entries] at he
  have hmem := SortedMap.find?_eq_some_iff.mp (SortedMap.find?_insert_self prices regId price)
  rw [he] at hmem
  exact List.not_mem_nil hmem

section EveryPrices

variable {Q : UserPrices → Prop} {F : UInt64 → Prop}
  (hQ : ∀ prices regId price, prices = ∅ ∨ Q prices → F price → Q (prices.insert regId price))

include hQ in
theorem everyPrices_addPrice (bases : List CoinPricePointMap) (height : HeightType) (regId : IneryRegID)
    {pps : List IneryPricePoint} (hpps : ∀ pp ∈ pps, F pp.price) {m : CoinPricePointMap}
    (hm : EveryPrices Q m) : EveryPrices Q (addPrice bases height regId pps m).2 := by
  induction pps generalizing m with
  | nil => exact hm
  | cons pp pps ih =>
    rw [addPrice]
    split_ifs
    · exact hm
    · refine ih (fun pp' hpp' => hpps pp' (List.mem_cons_of_mem _ hpp')) fun p h prices hprices => ?_
      rw [userPricesAt_addUserPrice] at hprices
      split_ifs at hprices
      · obtain rfl := Option.some.inj hprices
        refine hQ _ regId pp.price ?_ (hpps pp List.mem_cons_self)
        cases hold : userPricesAt m p h with
        | none => exact .inl rfl
        | some old => exact .inr (hm p h old hold)
      · exact hm p h prices hprices

include hQ in
theorem everyPrices_addPriceFeeds (bases : List CoinPricePointMap) (height : HeightType) {vptx : List CBaseTx}
    (hvptx : ∀ txUid pps, CBaseTx.priceFeed txUid pps ∈ vptx → ∀ pp ∈ pps, F pp.price)
    {m : CoinPricePointMap} (hm : EveryPrices Q m) : EveryPrices Q (addPriceFeeds bases height vptx m) := by
  induction vptx generalizing m with
  | nil => exact hm
  | cons tx vptx ih =>
    cases tx with
    | other => exact hm
    | priceFeed txUid pps =>
      refine ih (fun txUid' pps' hmem => hvptx txUid' pps' (List.mem_cons_of_mem _ hmem)) ?_
      exact everyPrices_addPrice hQ _ _ _ (hvptx txUid pps List.mem_cons_self) hm

include hQ in
theorem of_recorded {block : FeedBlock}
    (hvptx : ∀ txUid pps, CBaseTx.priceFeed txUid pps ∈ block.vptx → ∀ pp ∈ pps, F pp.price)
    {p : PriceCoinPair} {prices : UserPrices} (h : recorded block p = some prices) : Q prices := by
  have hnone : EveryPrices Q ∅ := fun p h prices hprices => absurd hprices (by simp)
  have hevery : EveryPrices Q (addPriceByBlock [] block ∅) := by
    rw [addPriceByBlock]
    split_ifs
    · exact hnone
    · exact everyPrices_addPriceFeeds hQ _ _
        (fun txUid pps hmem => hvptx txUid pps (List.mem_of_mem_drop hmem)) hnone
  exact hevery p block.height prices h

end EveryPrices

theorem isEmpty_recorded {block : FeedBlock} {p : PriceCoinPair} {prices : UserPrices}
    (h : recorded block p = some prices) : isEmpty prices = false :=
  of_recorded (Q := fun prices => isEmpty prices = false) (F := fun _ => True)
    (fun prices regId price _ _ => isEmpty_insert prices regId price) (fun _ _ _ _ _ => trivial) h

/-! ## Chains -/

/-- An entry of the block index with its predecessors, as the transactions of the blocks, its own first.
Its height is the number of the predecessors; `[]` is the null pointer. -/
abbrev Chain := List (List CBaseTx)

/-- `ReadBlockFromDisk`. -/
def readBlockFromDisk : Chain → Option FeedBlock
  | [] => none
  | vptx :: pprev => some ⟨pprev.length, vptx⟩

/-- The prices recorded for the block at a height of a chain. -/
def recordedAt : Chain → ℕ → PriceCoinPair → Option UserPrices
  | [], _, _ => none
  | vptx :: pprev, h, p => if h = pprev.length then recorded ⟨pprev.length, vptx⟩ p else recordedAt pprev h p

theorem recordedAt_of_le {chain : Chain} {h : ℕ} (hh : chain.length ≤ h) (p : PriceCoinPair) :
    recordedAt chain h p = none := by
  induction chain with
  | nil => rfl
  | cons vptx pprev ih =>
    rw [List.length_cons] at hh
    rw [recordedAt, if_neg (by omega), ih (by omega)]

theorem isEmpty_recordedAt {chain : Chain} {h : ℕ} {p : PriceCoinPair} {prices : UserPrices}
    (hp : recordedAt chain h p = some prices) : isEmpty prices = false := by
  induction chain with
  | nil => exact absurd hp (by simp [recordedAt])
  | cons vptx pprev ih =>
    rw [recordedAt] at hp
    split_ifs at hp
    · exact isEmpty_recorded hp
    · exact ih hp

theorem exists_readBlockFromDisk_drop {chain : Chain} {n : ℕ} (hn : n < chain.length) :
    ∃ block, readBlockFromDisk (chain.drop n) = some block ∧ chain.length - 1 - n = block.height ∧
      ∀ p, recordedAt chain block.height p = recorded block p := by
  induction chain generalizing n with
  | nil => exact absurd hn (Nat.not_lt_zero n)
  | cons vptx pprev ih =>
    cases n with
    | zero => exact ⟨⟨pprev.length, vptx⟩, rfl, by simp, fun p => if_pos rfl⟩
    | succ n =>
      rw [List.length_cons] at hn
      obtain ⟨block, hread, hheight, hrec⟩ := ih (n := n) (by omega)
      refine ⟨block, hread, ?_, fun p => ?_⟩
      · rw [← hheight, List.length_cons]
        omega
      · rw [recordedAt, if_neg (by rw [← hheight]; omega), hrec]

/-! ## Connecting and disconnecting blocks -/

/-- `(HeightType)slideWindow`. -/
def castHeight (slideWindow : UInt64) : ℕ := slideWindow.toUInt32.toNat

/-- The steps of a loop `while (pIndex && idx-- > 0)` that starts with `int idx = slideWindow`. -/
def slideSteps (slideWindow : UInt64) : ℕ := slideWindow.toUInt32.toInt32.toInt.toNat

/-- The loop of `ReleadBlocks`. -/
def releadBlocks (slideWindow : UInt64) : ℕ → Chain → CoinPricePointMap → CoinPricePointMap
  | _, [], m => m
  | count, vptx :: pprev, m =>
    if count < slideWindow.toNat then
      releadBlocks slideWindow (count + 1) pprev (addPriceByBlock [] ⟨pprev.length, vptx⟩ m)
    else m

/-- `PushBlock`; `none` if the block that leaves the window is not found. -/
def pushBlock (slideWindow : UInt64) (pTipBlockIdx : Chain) (m : CoinPricePointMap) :
    Option CoinPricePointMap :=
  if castHeight slideWindow < pTipBlockIdx.length - 1 then
    (readBlockFromDisk (pTipBlockIdx.drop (slideSteps slideWindow))).map fun deleteBlock =>
      deleteBlockFromCache deleteBlock m
  else some m

/-- `UndoBlock`; `none` if the block that comes back into the window is not found. -/
def undoBlock (slideWindow : UInt64) (bases : List CoinPricePointMap) (pTipBlockIdx : Chain)
    (block : FeedBlock) (m : CoinPricePointMap) : Option CoinPricePointMap :=
  let m := deleteBlockFromCache block m
  if castHeight slideWindow < pTipBlockIdx.length - 1 then
    (readBlockFromDisk (pTipBlockIdx.drop (slideSteps slideWindow))).map fun reLoadblock =>
      addPriceByBlock bases reLoadblock m
  else some m

/-- A block is put on a chain, in a new cache on the root that is then flushed. -/
def connectBlock (slideWindow : UInt64) (chain : Chain) (vptx : List CBaseTx) (root : CoinPricePointMap) :
    Option CoinPricePointMap :=
  (pushBlock slideWindow (vptx :: chain) (addPriceByBlock [root] ⟨chain.length, vptx⟩ ∅)).map (batchWrite root)

/-- The last block of a chain is taken off, in a new cache on the root that is then flushed. -/
def disconnectBlock (slideWindow : UInt64) (chain : Chain) (vptx : List CBaseTx) (root : CoinPricePointMap) :
    Option CoinPricePointMap :=
  (undoBlock slideWindow [root] (vptx :: chain) ⟨chain.length, vptx⟩ ∅).map (batchWrite root)

/-- `root` holds the prices of a chain at the heights in `S` and at no others. -/
structure Holds (S : ℕ → Prop) (chain : Chain) (root : CoinPricePointMap) : Prop where
  mem : ∀ h, S h → ∀ p, userPricesAt root p h = recordedAt chain h p
  not_mem : ∀ h, ¬S h → ∀ p, userPricesAt root p h = none

theorem Holds.eq_none {S : ℕ → Prop} {chain : Chain} {root : CoinPricePointMap} (hroot : Holds S chain root)
    {h : ℕ} {p : PriceCoinPair} (hrec : recordedAt chain h p = none) : userPricesAt root p h = none := by
  by_cases hS : S h
  · rw [hroot.mem h hS, hrec]
  · exact hroot.not_mem h hS p

theorem Holds.congr {S S' : ℕ → Prop} {chain : Chain} {root : CoinPricePointMap} (hroot : Holds S chain root)
    (hS : ∀ h, (S h ↔ S' h) ∨ ∀ p, recordedAt chain h p = none) : Holds S' chain root where
  mem h hh p := by
    rcases hS h with hiff | hnone
    · exact hroot.mem h (hiff.mpr hh) p
    · rw [hroot.eq_none (hnone p), hnone p]
  not_mem h hh p := by
    rcases hS h with hiff | hnone
    · exact hroot.not_mem h (fun hs => hh (hiff.mp hs)) p
    · exact hroot.eq_none (hnone p)

/-! ### A flush into the root -/

section Flush

variable {root m : CoinPricePointMap} {p : PriceCoinPair} {h : HeightType}

theorem userPricesAt_batchWrite_of_none (hm : userPricesAt m p h = none) :
    userPricesAt (batchWrite root m) p h = userPricesAt root p h := by
  rw [userPricesAt_batchWrite, hm]
  rfl

theorem userPricesAt_batchWrite_mark (hm : userPricesAt m p h = some ∅) :
    userPricesAt (batchWrite root m) p h = none := by
  rw [userPricesAt_batchWrite, hm]
  rfl

theorem emplaceAll_empty (prices : UserPrices) : emplaceAll ∅ prices = prices :=
  SortedMap.ext_find? fun regId => by rw [find?_emplaceAll, SortedMap.find?_empty, Option.none_or]

theorem userPricesAt_batchWrite_new (hroot : userPricesAt root p h = none)
    (hm : ∀ prices, userPricesAt m p h = some prices → isEmpty prices = false) :
    userPricesAt (batchWrite root m) p h = userPricesAt m p h := by
  rw [userPricesAt_batchWrite, hroot]
  cases hp : userPricesAt m p h with
  | none => rfl
  | some prices =>
    rw [Option.elim_some, written, if_neg (by simp [hm prices hp]), Option.getD_none, emplaceAll_empty]

end Flush

theorem Holds.added {S : ℕ → Prop} {chain : Chain} {root : CoinPricePointMap} (hroot : Holds S chain root)
    (vptx : List CBaseTx) (h : ℕ) (p : PriceCoinPair) :
    (h = chain.length ∨ S h → (if h = chain.length then recordedAt (vptx :: chain) h p
      else userPricesAt root p h) = recordedAt (vptx :: chain) h p) ∧
    (¬(h = chain.length ∨ S h) → (if h = chain.length then recordedAt (vptx :: chain) h p
      else userPricesAt root p h) = none) := by
  constructor
  · intro hh
    split_ifs with hH
    · rfl
    · exact (hroot.mem h (hh.resolve_left hH) p).trans (if_neg hH).symm
  · intro hh
    obtain ⟨hH, hS⟩ := not_or.mp hh
    rw [if_neg hH]
    exact hroot.not_mem h hS p

/-- **Connecting a block** adds its height and takes away the one that leaves the window. -/
theorem holds_connectBlock {S : ℕ → Prop} {chain : Chain} {root : CoinPricePointMap}
    (hroot : Holds S chain root) (w : UInt64) (vptx : List CBaseTx)
    (hw : castHeight w < chain.length → slideSteps w = castHeight w) :
    ∃ root', connectBlock w chain vptx root = some root' ∧
      Holds (fun h => (h = chain.length ∨ S h) ∧
        ¬(castHeight w < chain.length ∧ h = chain.length - castHeight w)) (vptx :: chain) root' := by
  have hnone : ∀ p, userPricesAt root p chain.length = none := fun p =>
    hroot.eq_none (recordedAt_of_le le_rfl p)
  have hchild : ∀ p h, userPricesAt (addPriceByBlock [root] ⟨chain.length, vptx⟩ ∅) p h =
      if h = chain.length then recorded ⟨chain.length, vptx⟩ p else none := fun p h =>
    userPricesAt_addPriceByBlock (by simpa [AgreeAt] using hnone) (fun p => rfl) p h
  -- the heights that the child leaves alone or adds
  have hkeep : ∀ m p h, userPricesAt m p h =
      userPricesAt (addPriceByBlock [root] ⟨chain.length, vptx⟩ ∅) p h →
        userPricesAt (batchWrite root m) p h =
          if h = chain.length then recordedAt (vptx :: chain) h p else userPricesAt root p h := by
    intro m p h hm
    rw [hchild] at hm
    split_ifs at hm ⊢ with hh
    · subst hh
      rw [userPricesAt_batchWrite_new (hnone p), hm]
      · exact (if_pos rfl).symm
      · exact fun prices hprices => isEmpty_recorded (hm.symm.trans hprices)
    · exact userPricesAt_batchWrite_of_none hm
  unfold connectBlock pushBlock
  rw [List.length_cons, Nat.add_sub_cancel]
  split_ifs with hlt
  · have hlen : castHeight w < (vptx :: chain).length := Nat.lt_succ_of_lt hlt
    obtain ⟨d, hread, hheight, hrec⟩ := exists_readBlockFromDisk_drop hlen
    rw [List.length_cons, Nat.add_sub_cancel] at hheight
    rw [hw hlt, hread]
    refine ⟨_, rfl, fun h hh p => ?_, fun h hh p => ?_⟩
    · have hne : h ≠ d.height := fun he => hh.2 ⟨hlt, he.trans hheight.symm⟩
      rw [hkeep _ _ _ (by rw [userPricesAt_deleteBlockFromCache, if_neg fun hn => hne hn.1])]
      exact (hroot.added vptx h p).1 hh.1
    · by_cases hd : h = d.height
      · by_cases hp : p ∈ deletingSet (d.vptx.drop 1) ∨
            ((addPriceByBlock [root] ⟨chain.length, vptx⟩ ∅).find? p).isSome
        · exact userPricesAt_batchWrite_mark
            (by rw [userPricesAt_deleteBlockFromCache, if_pos ⟨hd, hp⟩])
        · -- a coin pair that no mark is set for has no price in the block
          have hrec' : recordedAt (vptx :: chain) h p = none := by
            rw [hd, hrec, recorded_eq_none fun hm => hp (.inl hm)]
          rw [hkeep _ _ _ (by rw [userPricesAt_deleteBlockFromCache, if_neg fun hn => hp hn.2])]
          split_ifs with hH
          · exact hrec'
          · exact hroot.eq_none ((if_neg hH).symm.trans hrec')
      · rw [hkeep _ _ _ (by rw [userPricesAt_deleteBlockFromCache, if_neg fun hn => hd hn.1])]
        exact (hroot.added vptx h p).2 fun ho => hh ⟨ho, fun hn => hd (hn.2.trans hheight)⟩
  · refine ⟨_, rfl, fun h hh p => ?_, fun h hh p => ?_⟩
    · exact (hkeep _ _ _ rfl).trans ((hroot.added vptx h p).1 hh.1)
    · exact (hkeep _ _ _ rfl).trans ((hroot.added vptx h p).2 fun ho => hh ⟨ho, fun hn => hlt hn.1⟩)

/-- A child that marks what the last block recorded hides it. -/
theorem Holds.tip_deleted {S : ℕ → Prop} {chain : Chain} {vptx : List CBaseTx} {root m : CoinPricePointMap}
    (hroot : Holds S (vptx :: chain) root) {p : PriceCoinPair} (hm : userPricesAt m p chain.length =
      userPricesAt (deleteBlockFromCache ⟨chain.length, vptx⟩ ∅) p chain.length) :
    userPricesAt (batchWrite root m) p chain.length = none := by
  rw [userPricesAt_deleteBlockFromCache] at hm
  split_ifs at hm with hp
  · exact userPricesAt_batchWrite_mark hm
  · have hrec : recordedAt (vptx :: chain) chain.length p = none :=
      (if_pos rfl).trans (recorded_eq_none fun hmem => hp ⟨rfl, .inl hmem⟩)
    rw [userPricesAt_batchWrite_of_none hm]
    exact hroot.eq_none hrec

/-- **Disconnecting a block** takes away its height and brings back the one that enters the window. -/
theorem holds_disconnectBlock {S : ℕ → Prop} {chain : Chain} {vptx : List CBaseTx}
    {root : CoinPricePointMap} (hroot : Holds S (vptx :: chain) root) (w : UInt64)
    (hw : castHeight w < chain.length → slideSteps w = castHeight w)
    (hpos : 0 < castHeight w) (hleft : castHeight w < chain.length → ¬S (chain.length - castHeight w)) :
    ∃ root', disconnectBlock w chain vptx root = some root' ∧
      Holds (fun h => (h ≠ chain.length ∧ S h) ∨
        (castHeight w < chain.length ∧ h = chain.length - castHeight w)) chain root' := by
  have hold : ∀ h, h ≠ chain.length → ∀ p, recordedAt (vptx :: chain) h p = recordedAt chain h p :=
    fun h hh p => if_neg hh
  have hchild : ∀ p h, h ≠ chain.length →
      userPricesAt (deleteBlockFromCache ⟨chain.length, vptx⟩ ∅) p h = none := fun p h hh => by
    rw [userPricesAt_deleteBlockFromCache, if_neg fun hn => hh hn.1]
    rfl
  unfold disconnectBlock undoBlock
  rw [List.length_cons, Nat.add_sub_cancel]
  dsimp only
  split_ifs with hlt
  · have hlen : castHeight w < (vptx :: chain).length := Nat.lt_succ_of_lt hlt
    obtain ⟨d, hread, hheight, hd⟩ := exists_readBlockFromDisk_drop hlen
    rw [List.length_cons, Nat.add_sub_cancel] at hheight
    have hne : chain.length ≠ d.height := by
      rw [← hheight]
      omega
    have hnone : ∀ p, userPricesAt root p d.height = none := hroot.not_mem d.height (hheight ▸ hleft hlt)
    have hadd : ∀ p h, userPricesAt (addPriceByBlock [root] d
        (deleteBlockFromCache ⟨chain.length, vptx⟩ ∅)) p h =
          if h = d.height then recorded d p
          else userPricesAt (deleteBlockFromCache ⟨chain.length, vptx⟩ ∅) p h :=
      fun p h => userPricesAt_addPriceByBlock (by simpa [AgreeAt] using hnone)
        (fun p => hchild p _ hne.symm) p h
    rw [hw hlt, hread]
    refine ⟨_, rfl, fun h hh p => ?_, fun h hh p => ?_⟩
    · by_cases hh' : h = d.height
      · have hrec' : recordedAt chain h p = recorded d p := by
          rw [← hold h (hh'.trans_ne hne.symm), hh', hd]
        rw [hrec', ← if_pos hh' (t := recorded d p), ← hadd]
        refine userPricesAt_batchWrite_new (hh' ▸ hnone p) fun prices hprices => ?_
        rw [hadd, if_pos hh'] at hprices
        exact isEmpty_recorded hprices
      · obtain ⟨hH, hS⟩ := hh.resolve_right fun hn => hh' (hn.2.trans hheight)
        rw [userPricesAt_batchWrite_of_none (by rw [hadd, if_neg hh', hchild p h hH]), hroot.mem h hS,
          hold h hH]
    · by_cases hH : h = chain.length
      · rw [hH]
        exact hroot.tip_deleted (by rw [hadd, if_neg hne])
      · have hh' : h ≠ d.height := fun he => hh (.inr ⟨hlt, he.trans hheight.symm⟩)
        rw [userPricesAt_batchWrite_of_none (by rw [hadd, if_neg hh', hchild p h hH])]
        exact hroot.not_mem h (fun hS => hh (.inl ⟨hH, hS⟩)) p
  · refine ⟨_, rfl, fun h hh p => ?_, fun h hh p => ?_⟩
    · obtain ⟨hH, hS⟩ := hh.resolve_right fun hn => hlt hn.1
      rw [userPricesAt_batchWrite_of_none (hchild p h hH), hroot.mem h hS, hold h hH]
    · by_cases hH : h = chain.length
      · rw [hH]
        exact hroot.tip_deleted rfl
      · rw [userPricesAt_batchWrite_of_none (hchild p h hH)]
        exact hroot.not_mem h (fun hS => hh (.inl ⟨hH, hS⟩)) p

/-- **`ReleadBlocks` adds the last blocks of a chain** to a cache that knows none of its heights. -/
theorem userPricesAt_releadBlocks (w : UInt64) {chain : Chain} {m : CoinPricePointMap} (count : ℕ)
    (hm : ∀ h < chain.length, AgreeAt h m ∅) (p : PriceCoinPair) (h : ℕ) :
    userPricesAt (releadBlocks w count chain m) p h =
      if h < chain.length ∧ chain.length + count ≤ h + w.toNat then recordedAt chain h p
      else userPricesAt m p h := by
  induction chain generalizing m count with
  | nil => rfl
  | cons vptx pprev ih =>
    rw [List.length_cons] at hm ⊢
    have hadd : ∀ p, ∀ h : ℕ, userPricesAt (addPriceByBlock [] ⟨pprev.length, vptx⟩ m) p h =
        if h = pprev.length then recorded ⟨pprev.length, vptx⟩ p else userPricesAt m p h :=
      userPricesAt_addPriceByBlock (by simp) (hm _ (Nat.lt_succ_self _))
    rw [releadBlocks]
    split_ifs with hcount hin hin
    · rw [ih (count + 1), hadd, recordedAt]
      · by_cases hh : h = pprev.length
        · rw [if_neg (by omega), if_pos hh, if_pos hh]
        · rw [if_pos (by omega), if_neg hh]
      · intro h' hh' p'
        rw [hadd, if_neg hh'.ne]
        exact hm h' (Nat.lt_succ_of_lt hh') p'
    · rw [ih (count + 1), hadd]
      · rw [if_neg (by omega), if_neg (by omega)]
      · intro h' hh' p'
        rw [hadd, if_neg hh'.ne]
        exact hm h' (Nat.lt_succ_of_lt hh') p'
    · omega
    · rfl

/-- The heights of the window of a chain. -/
def InWindow (w : UInt64) (chain : Chain) (h : ℕ) : Prop :=
  h < chain.length ∧ chain.length ≤ h + w.toNat

theorem holds_releadBlocks (w : UInt64) (chain : Chain) :
    Holds (InWindow w chain) chain (releadBlocks w 0 chain ∅) where
  mem h hh p := by
    rw [userPricesAt_releadBlocks w 0 (fun _ _ _ => rfl), if_pos ⟨hh.1, hh.2⟩]
  not_mem h hh p := by
    rw [userPricesAt_releadBlocks w 0 (fun _ _ _ => rfl), if_neg fun hn => hh ⟨hn.1, hn.2⟩]
    rfl

/-- **What is read from a root cache**: the prices of the heights it holds. -/
theorem Holds.find?_getBlockUserPrices {S : ℕ → Prop} [DecidablePred S] {chain : Chain}
    {root : CoinPricePointMap} (hroot : Holds S chain root) (p : PriceCoinPair) (h : ℕ) :
    (getBlockUserPrices [root] p).find? h = if S h then recordedAt chain h p else none := by
  rw [Inery.find?_getBlockUserPrices, topPrices, topPrices, Option.or_none]
  split_ifs with hS
  · rw [hroot.mem h hS]
    cases hr : recordedAt chain h p with
    | none => rfl
    | some prices => exact live_of_not_isEmpty (isEmpty_recordedAt hr)
  · rw [hroot.not_mem h hS]
    rfl

/-! ## Runs -/

theorem slideSteps_eq {w : UInt64} (hw : castHeight w < 2 ^ 31) : slideSteps w = castHeight w := by
  rw [slideSteps, castHeight]
  change (w.toUInt32.toBitVec.toInt).toNat = w.toUInt32.toBitVec.toNat
  rw [BitVec.toInt_eq_toNat_of_lt (by change 2 * castHeight w < 2 ^ 32; omega), Int.toNat_natCast]

theorem castHeight_eq {w : UInt64} (hw : w.toNat < 2 ^ 32) : castHeight w = w.toNat := by
  rw [castHeight, UInt64.toNat_toUInt32, Nat.mod_eq_of_lt hw]

/-- A change of the active chain. -/
inductive ChainOp
  | connect (vptx : List CBaseTx)
  | disconnect

/-- One change of the active chain; the first block is never disconnected. -/
def windowStep (w : UInt64) (s : Chain × CoinPricePointMap) : ChainOp → Option (Chain × CoinPricePointMap)
  | .connect vptx => (connectBlock w s.1 vptx s.2).map fun root => (vptx :: s.1, root)
  | .disconnect =>
    match s.1 with
    | vptx :: tip :: chain =>
      (disconnectBlock w (tip :: chain) vptx s.2).map fun root => (tip :: chain, root)
    | _ => none

/-- The root holds the window of a chain whose first block has no prices. -/
structure Windowed (w : UInt64) (s : Chain × CoinPricePointMap) : Prop where
  ne_nil : s.1 ≠ []
  genesis : ∀ p, recordedAt s.1 0 p = none
  holds : Holds (InWindow w s.1) s.1 s.2

theorem windowed_connect {w : UInt64} (hlt : w.toNat < 2 ^ 31) {s : Chain × CoinPricePointMap}
    (hs : Windowed w s) (vptx : List CBaseTx) :
    ∃ s', windowStep w s (.connect vptx) = some s' ∧ Windowed w s' := by
  have hcast := castHeight_eq (hlt.trans (by decide))
  obtain ⟨root', hconnect, hholds⟩ := holds_connectBlock hs.holds w vptx fun _ =>
    slideSteps_eq (hcast ▸ hlt)
  have hlen : 0 < s.1.length := List.length_pos_iff.mpr hs.ne_nil
  have hgen : ∀ p, recordedAt (vptx :: s.1) 0 p = none := fun p =>
    (if_neg hlen.ne).trans (hs.genesis p)
  refine ⟨(vptx :: s.1, root'), by rw [windowStep, hconnect]; rfl, List.cons_ne_nil _ _, hgen, ?_⟩
  refine hholds.congr fun h => ?_
  rw [hcast, InWindow, InWindow, List.length_cons]
  by_cases h0 : h = 0
  · exact .inr (h0 ▸ hgen)
  · exact .inl (by omega)

theorem windowed_disconnect {w : UInt64} (hpos : 1 ≤ w.toNat) (hlt : w.toNat < 2 ^ 31)
    {s : Chain × CoinPricePointMap} (hs : Windowed w s) (hlen : 2 ≤ s.1.length) :
    ∃ s', windowStep w s .disconnect = some s' ∧ Windowed w s' := by
  have hcast := castHeight_eq (hlt.trans (by decide))
  obtain ⟨chain, root⟩ := s
  match chain, hlen with
  | vptx :: tip :: chain, _ =>
    have hleft : castHeight w < (tip :: chain).length →
        ¬InWindow w (vptx :: tip :: chain) ((tip :: chain).length - castHeight w) := by
      rintro hlt' ⟨-, hlen'⟩
      rw [List.length_cons] at hlen'
      omega
    obtain ⟨root', hdisconnect, hholds⟩ := holds_disconnectBlock hs.holds w
      (fun _ => slideSteps_eq (hcast ▸ hlt)) (hcast ▸ hpos) hleft
    have hgen : ∀ p, recordedAt (tip :: chain) 0 p = none := fun p => by
      have h := hs.genesis p
      rwa [recordedAt, if_neg (by simp)] at h
    have hstep : windowStep w (vptx :: tip :: chain, root) .disconnect = some (tip :: chain, root') :=
      congrArg (Option.map fun root => (tip :: chain, root)) hdisconnect
    refine ⟨(tip :: chain, root'), hstep, List.cons_ne_nil _ _, hgen, ?_⟩
    refine hholds.congr fun h => ?_
    simp only [hcast, InWindow, List.length_cons]
    by_cases h0 : h = 0
    · exact .inr (h0 ▸ hgen)
    · exact .inl (by omega)

/-- **The price window follows the active chain.** From a root that was loaded at some tip, or an empty
one at the first block, every run of connects and disconnects leaves the prices of the blocks at the
heights in the window of the chain that it ends with, and no others. -/
theorem window_follows_chain {w : UInt64} (hpos : 1 ≤ w.toNat) (hlt : w.toNat < 2 ^ 31) {chain : Chain}
    {root : CoinPricePointMap} (hchain : chain ≠ []) (hgenesis : ∀ p, recordedAt chain 0 p = none)
    (hroot : root = releadBlocks w 0 chain ∅ ∨ chain.length = 1 ∧ root = ∅) {ops : List ChainOp}
    (hops : AllSteps (windowStep w) (fun s op => op = .disconnect → 2 ≤ s.1.length) (chain, root) ops) :
    ∃ s, run (windowStep w) (chain, root) ops = some s ∧ ∀ p, ∀ h : ℕ,
      (getBlockUserPrices [s.2] p).find? h =
        if h < s.1.length ∧ s.1.length ≤ h + w.toNat then recordedAt s.1 h p else none := by
  have hstart : Windowed w (chain, root) := by
    refine ⟨hchain, hgenesis, ?_⟩
    rcases hroot with rfl | ⟨hlen, rfl⟩
    · exact holds_releadBlocks w chain
    · have hempty : Holds (fun _ => False) chain ∅ := ⟨fun h hh => hh.elim, fun h _ p => rfl⟩
      refine hempty.congr fun h => ?_
      by_cases h0 : h = 0
      · exact .inr (h0 ▸ hgenesis)
      · refine .inl (iff_of_false not_false fun hin => ?_)
        have hin' : h < chain.length := hin.1
        omega
  have hstep : ∀ s op, Windowed w s → (op = .disconnect → 2 ≤ s.1.length) →
      ∃ s', windowStep w s op = some s' ∧ Windowed w s' := by
    intro s op hs hop
    cases op with
    | connect vptx => exact windowed_connect hlt hs vptx
    | disconnect => exact windowed_disconnect hpos hlt hs (hop rfl)
  obtain ⟨s, hrun, hs⟩ := run_exists (windowStep w) hstep hstart hops
  exact ⟨s, hrun, Holds.find?_getBlockUserPrices
    (S := fun h => h < s.1.length ∧ s.1.length ≤ h + w.toNat) hs.holds⟩

/-- A block in which one user feeds one price. -/
def feedVptx (price : UInt64) : List CBaseTx :=
  [.other, .priceFeed (toLex (1, 1)) [⟨toLex ([87], [85]), price⟩], .other]

/-- A reorganisation of one block at height 3, with a window of 2 blocks. -/
theorem window_follows_chain_fork :
    ∃ s, run (windowStep 2) ([feedVptx 13, feedVptx 12, feedVptx 11, [.other]],
        releadBlocks 2 0 [feedVptx 13, feedVptx 12, feedVptx 11, [.other]] ∅)
        [.disconnect, .connect (feedVptx 23)] = some s ∧
      ∀ p, ∀ h : ℕ, (getBlockUserPrices [s.2] p).find? h =
        if h < s.1.length ∧ s.1.length ≤ h + (2 : UInt64).toNat then recordedAt s.1 h p else none :=
  window_follows_chain (by decide) (by decide) (List.cons_ne_nil _ _) (fun _ => rfl) (.inl rfl)
    ⟨fun _ => by decide, fun _ _ => ⟨fun h => ChainOp.noConfusion h, fun _ _ => trivial⟩⟩

end Inery
