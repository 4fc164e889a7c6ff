import IneryPersistence.Price.Details
import Mathlib.Order.Bounds.Basic

/-!
# The height of the last feed

* `FeedNode`, `FeedNode.step`: blocks with price feeds whose median prices are stored, and their disconnection;
* `LastFeeds`: every stored price names the last feed of its coin pair;
* `recentPrices`: the prices that a block reads of its chain, and **`windowPrices_connect`**;
* `Told`, **`isGreatest_iff_told`**: when the price of one coin pair names its last feed;
* `Consistent`, `consistent_connect`, `consistent_disconnect`: what every step keeps;
* **`last_feed_height_iff`**: the blocks after which all prices name the last feeds.
-/

namespace Inery

open KV

/-! ## Blocks -/

/-- What a transaction does to the coin pairs and the assets. -/
inductive FeedChange (Asset : Type)
  | addFeedCoinPair (coinPair : PriceCoinPair)
  | eraseFeedCoinPair (coinPair : PriceCoinPair)
  | setAsset (asset : Asset)

/-- A block, with what it changes before its median prices are computed, and after that. -/
structure PricedBlock (Asset : Type) where
  before : List (FeedChange Asset)
  vptx : List CBaseTx
  after : List (FeedChange Asset)

inductive FeedOp (Asset : Type)
  | connect (block : PricedBlock Asset)
  | disconnect

/-- A node with its active chain, the root of its price cache, its data, and the data that the blocks of the
chain found, the last one first. -/
structure FeedNode (Asset : Type) where
  chain : Chain
  root : CoinPricePointMap
  data : PriceFeedData Asset
  undos : List (PriceFeedData Asset)

/-- The price cache of a block to which its prices were added, and the root it stands on. -/
abbrev blockCaches (root : CoinPricePointMap) (chain : Chain) (vptx : List CBaseTx) : List CoinPricePointMap :=
  [addPriceByBlock [root] ⟨chain.length, vptx⟩ ∅, root]

section Model

variable {Asset : Type} [CAsset Asset] [DbUtil Asset] [PriceFeedConfig]

def PriceFeedData.change (data : PriceFeedData Asset) : FeedChange Asset → PriceFeedData Asset
  | .addFeedCoinPair coinPair => data.addFeedCoinPair coinPair
  | .eraseFeedCoinPair coinPair => data.eraseFeedCoinPair coinPair
  | .setAsset asset => data.setAsset asset

/-- The data that `CalcMedianPriceDetails` finds in a block. -/
def PricedBlock.dataBefore (block : PricedBlock Asset) (data : PriceFeedData Asset) : PriceFeedData Asset :=
  block.before.foldl PriceFeedData.change data

/-- `CalcMedianPriceDetails` after the prices of a block were added, in a new cache on the root. -/
def FeedNode.calc (w : UInt64) (s : FeedNode Asset) (block : PricedBlock Asset) : Option PriceDetailMap :=
  (block.dataBefore s.data).calcMedianPriceDetails (blockCaches s.root s.chain block.vptx) s.chain.length w

/-- A block is connected, and its median prices are stored; or the last block is undone, and its undo data restores
what it found in the caches. -/
def FeedNode.step (w : UInt64) (s : FeedNode Asset) : FeedOp Asset → Option (FeedNode Asset)
  | .connect block => (s.calc w block).bind fun medianPrices =>
    (connectBlock w s.chain block.vptx s.root).map fun root =>
      { chain := block.vptx :: s.chain
        root := root
        data := block.after.foldl PriceFeedData.change ((block.dataBefore s.data).setMedianPrices medianPrices)
        undos := s.data :: s.undos }
  | .disconnect =>
    match s.chain, s.undos with
    | vptx :: chain, data :: undos =>
      (disconnectBlock w chain vptx s.root).map fun root =>
        { chain := chain, root := root, data := data, undos := undos }
    | _, _ => none

/-- A node without blocks, which has stored no prices. -/
def FeedNode.start (data : PriceFeedData Asset) : FeedNode Asset :=
  { chain := [], root := ∅, data := data.setMedianPrices ∅, undos := [] }

end Model

/-! ## The heights of the feeds of a pair -/

/-- The heights of a chain at which prices of a coin pair were recorded. -/
def feedHeights (chain : Chain) (p : PriceCoinPair) : Set ℕ := { h | (recordedAt chain h p).isSome }

/-- Every price names the height of the last feed of its coin pair. -/
def LastFeeds (chain : Chain) (medianPrices : PriceDetailMap) : Prop :=
  ∀ p detail, medianPrices.find? p = some detail → IsGreatest (feedHeights chain p) detail.lastFeedHeight

theorem mem_feedHeights {chain : Chain} {p : PriceCoinPair} {h : ℕ} :
    h ∈ feedHeights chain p ↔ (recordedAt chain h p).isSome := Iff.rfl

theorem lt_of_mem_feedHeights {chain : Chain} {p : PriceCoinPair} {h : ℕ} (hh : h ∈ feedHeights chain p) :
    h < chain.length := by
  by_contra hle
  rw [mem_feedHeights, recordedAt_of_le (Nat.le_of_not_lt hle)] at hh
  exact Bool.noConfusion hh

theorem mem_feedHeights_cons {vptx : List CBaseTx} {chain : Chain} {p : PriceCoinPair} {h : ℕ} :
    h ∈ feedHeights (vptx :: chain) p ↔
      (h = chain.length ∧ (recorded ⟨chain.length, vptx⟩ p).isSome) ∨ h ∈ feedHeights chain p := by
  rw [mem_feedHeights, mem_feedHeights, recordedAt]
  split_ifs with hh
  · rw [hh, recordedAt_of_le le_rfl]
    simp
  · simp [hh]

theorem feedHeights_cons_of_none {vptx : List CBaseTx} {chain : Chain} {p : PriceCoinPair}
    (hfeed : recorded ⟨chain.length, vptx⟩ p = none) : feedHeights (vptx :: chain) p = feedHeights chain p := by
  ext h
  rw [mem_feedHeights_cons, hfeed]
  simp

theorem isGreatest_feedHeights_cons {vptx : List CBaseTx} {chain : Chain} {p : PriceCoinPair}
    (hfeed : (recorded ⟨chain.length, vptx⟩ p).isSome) :
    IsGreatest (feedHeights (vptx :: chain) p) chain.length := by
  refine ⟨mem_feedHeights_cons.mpr (.inl ⟨rfl, hfeed⟩), fun h hh => ?_⟩
  exact Nat.le_of_lt_succ (lt_of_mem_feedHeights hh)

/-! ## The prices that a block reads -/

/-- The number of heights that are read: those of the window that the cache keeps, and the own one. -/
def windowSize (w : UInt64) : ℕ := min w.toNat (castHeight w + 1)

/-- The prices of a coin pair in the last blocks of a chain; the first block of all is not read. -/
def recentPrices (p : PriceCoinPair) : ℕ → Chain → List UInt64
  | n + 1, vptx :: tip :: chain =>
    (match recorded ⟨(tip :: chain).length, vptx⟩ p with
      | some prices => prices.entries.map Prod.snd
      | none => []) ++ recentPrices p n (tip :: chain)
  | _, _ => []

theorem exists_feed_of_recentPrices {p : PriceCoinPair} {n : ℕ} {chain : Chain}
    (h : recentPrices p n chain ≠ []) : ∃ x ∈ feedHeights chain p, 0 < x := by
  fun_induction recentPrices p n chain with
  | case1 n vptx tip chain ih =>
    cases hfeed : recorded ⟨(tip :: chain).length, vptx⟩ p with
    | none =>
      rw [hfeed, List.nil_append] at h
      obtain ⟨x, hx, hpos⟩ := ih h
      exact ⟨x, mem_feedHeights_cons.mpr (.inr hx), hpos⟩
    | some prices =>
      exact ⟨(tip :: chain).length, mem_feedHeights_cons.mpr (.inl ⟨rfl, by rw [hfeed]; rfl⟩), Nat.succ_pos _⟩
  | case2 => exact absurd rfl h

theorem recentPrices_ne_nil {p : PriceCoinPair} {n : ℕ} {vptx : List CBaseTx} {chain : Chain} (hn : 0 < n)
    (hchain : chain ≠ []) (hfeed : (recorded ⟨chain.length, vptx⟩ p).isSome) :
    recentPrices p n (vptx :: chain) ≠ [] := by
  obtain ⟨prices, hprices⟩ := Option.isSome_iff_exists.mp hfeed
  have hne : prices.entries ≠ [] := fun hnil =>
    Bool.false_ne_true ((isEmpty_recorded hprices).symm.trans ((isEmpty_iff_entries prices).mpr hnil))
  match n, chain with
  | n + 1, tip :: chain =>
    rw [recentPrices, hprices]
    exact List.append_ne_nil_of_left_ne_nil (fun hnil => hne (List.map_eq_nil_iff.mp hnil)) _

/-- All prices of a chain are positive. -/
def PositivePrices (chain : Chain) : Prop :=
  ∀ h p prices, recordedAt chain h p = some prices → ∀ price ∈ prices.entries.map Prod.snd, 0 < price

theorem PositivePrices.tail {vptx : List CBaseTx} {chain : Chain} (h : PositivePrices (vptx :: chain)) :
    PositivePrices chain := by
  intro x p prices hx
  have hlt : x < chain.length := lt_of_mem_feedHeights (p := p) (by rw [mem_feedHeights, hx]; rfl)
  exact h x p prices ((if_neg hlt.ne).trans hx)

theorem PositivePrices.cons {chain : Chain} {vptx : List CBaseTx} (h : PositivePrices chain)
    (hvptx : ∀ txUid pps, CBaseTx.priceFeed txUid pps ∈ vptx → ∀ pp ∈ pps, 0 < pp.price) :
    PositivePrices (vptx :: chain) := by
  intro x p prices hx
  rw [recordedAt] at hx
  split_ifs at hx with hxlen
  · refine of_recorded (F := fun price => 0 < price)
      (Q := fun prices => ∀ price ∈ prices.entries.map Prod.snd, 0 < price) ?_ hvptx hx
    intro prices regId price hold hprice price' hprice'
    obtain ⟨⟨regId', value⟩, hmem, rfl⟩ := List.mem_map.mp hprice'
    have hfind := SortedMap.find?_eq_some_iff.mpr hmem
    rw [SortedMap.find?_insert] at hfind
    split_ifs at hfind
    · obtain rfl := Option.some.inj hfind
      exact hprice
    · rcases hold with rfl | hold
      · exact absurd hfind (by simp)
      · exact hold value (List.mem_map.mpr ⟨_, SortedMap.find?_eq_some_iff.mp hfind, rfl⟩)
  · exact h x p prices hx

theorem PositivePrices.recentPrices_pos {p : PriceCoinPair} {n : ℕ} {chain : Chain}
    (h : PositivePrices chain) : ∀ price ∈ recentPrices p n chain, 0 < price := by
  fun_induction recentPrices p n chain with
  | case1 n vptx tip chain ih =>
    refine List.forall_mem_append.mpr ⟨?_, ih h.tail⟩
    cases hfeed : recorded ⟨(tip :: chain).length, vptx⟩ p with
    | none => exact fun price hprice => absurd hprice List.not_mem_nil
    | some prices => exact h (tip :: chain).length p prices ((if_pos rfl).trans hfeed)
  | case2 => exact fun price hprice => absurd hprice List.not_mem_nil

theorem windowPrices_eq_recentPrices {p : PriceCoinPair} {m : BlockUserPriceMap} {chain : Chain} {b c n : ℕ}
    (hlen : chain.length = b + c + 1) (hb : b = 0 ∨ n ≤ c)
    (hm : ∀ h, b < h → h ≤ b + c → m.find? h = if b + c < h + n then recordedAt chain h p else none) :
    windowPrices m b c = recentPrices p n chain := by
  induction c generalizing chain n with
  | zero =>
    rcases hb with rfl | hn
    · obtain ⟨vptx, rfl⟩ := List.length_eq_one_iff.mp hlen
      simp [windowPrices, recentPrices]
    · obtain rfl := Nat.le_zero.mp hn
      simp [windowPrices, recentPrices]
  | succ c ih =>
    obtain ⟨vptx, chain, rfl⟩ := List.exists_cons_of_length_eq_add_one hlen
    obtain ⟨tip, chain, rfl⟩ := List.exists_cons_of_length_eq_add_one (Nat.succ.inj hlen)
    cases n with
    | zero =>
      rw [recentPrices, ← windowPrices_empty b (c + 1)]
      · refine windowPrices_congr fun h hlow hhigh => ?_
        rw [hm h hlow hhigh, if_neg (by omega)]
        rfl
      · exact fun n' _ _ _ hn => absurd hn (by omega)
    | succ n =>
      rw [List.length_cons] at hlen
      have htip : (tip :: chain).length = b + c + 1 := by omega
      have hfirst : m.find? (b + c + 1) = recorded ⟨(tip :: chain).length, vptx⟩ p := by
        rw [hm _ (by omega) (by omega), if_pos (by omega), recordedAt, if_pos htip.symm]
      have hrest : windowPrices m b c = recentPrices p n (tip :: chain) := by
        refine ih htip (by omega) fun h hlow hhigh => ?_
        have hne : h ≠ (tip :: chain).length := by omega
        rw [hm h hlow (by omega), recordedAt, if_neg hne]
        exact if_congr (by omega) rfl rfl
      rw [windowPrices, recentPrices, hfirst]
      exact congrArg (HAppend.hAppend _) hrest

/-- The heights that no block has dropped; the first block of all is never dropped. -/
def Undropped (w : UInt64) (chain : Chain) (h : ℕ) : Prop :=
  h < chain.length ∧ (h = 0 ∨ chain.length ≤ h + castHeight w)

theorem find?_getBlockUserPrices_connect {S : ℕ → Prop} {chain : Chain} {root : CoinPricePointMap}
    (hroot : Holds S chain root) (vptx : List CBaseTx) (p : PriceCoinPair) (h : ℕ) :
    (h = chain.length ∨ S h →
      (getBlockUserPrices (blockCaches root chain vptx) p).find? h = recordedAt (vptx :: chain) h p) ∧
    (¬(h = chain.length ∨ S h) → (getBlockUserPrices (blockCaches root chain vptx) p).find? h = none) := by
  have hnone : ∀ p, userPricesAt root p chain.length = none := fun p =>
    hroot.eq_none (recordedAt_of_le le_rfl p)
  have hchild : userPricesAt (addPriceByBlock [root] ⟨chain.length, vptx⟩ ∅) p h =
      if h = chain.length then recorded ⟨chain.length, vptx⟩ p else none :=
    userPricesAt_addPriceByBlock (by simpa [AgreeAt] using hnone) (fun p => rfl) p h
  have htop : topPrices p h (blockCaches root chain vptx) =
      if h = chain.length then recordedAt (vptx :: chain) h p else userPricesAt root p h := by
    rw [topPrices, topPrices, topPrices, Option.or_none, hchild, recordedAt]
    split_ifs with hH
    · rw [hH, hnone, Option.or_none]
    · rfl
  rw [find?_getBlockUserPrices, htop]
  refine ⟨fun hh => ?_, fun hh => ?_⟩
  · rw [(hroot.added vptx h p).1 hh]
    cases hr : recordedAt (vptx :: chain) h p with
    | none => rfl
    | some prices => exact live_of_not_isEmpty (isEmpty_recordedAt hr)
  · rw [(hroot.added vptx h p).2 hh]
    rfl

theorem castHeight_le (w : UInt64) : castHeight w ≤ w.toNat := by
  rw [castHeight, UInt64.toNat_toUInt32]
  exact Nat.mod_le _ _

/-- **The prices that a block reads** are the recent ones of its chain. -/
theorem windowPrices_connect {w : UInt64} (hw : 0 < w.toNat) {chain : Chain} {root : CoinPricePointMap}
    (hroot : Holds (Undropped w chain) chain root) (vptx : List CBaseTx) (p : PriceCoinPair) :
    windowPrices (getBlockUserPrices (blockCaches root chain vptx) p) (chain.length - w.toNat)
        (chain.length - (chain.length - w.toNat)) =
      recentPrices p (windowSize w) (vptx :: chain) := by
  have hcast := castHeight_le w
  have hsize : windowSize w = min w.toNat (castHeight w + 1) := rfl
  refine windowPrices_eq_recentPrices (by rw [List.length_cons]; omega) (by omega) fun h hlow hhigh => ?_
  have hread := find?_getBlockUserPrices_connect hroot vptx p h
  have hiff : (h = chain.length ∨ Undropped w chain h) ↔
      chain.length - w.toNat + (chain.length - (chain.length - w.toNat)) < h + windowSize w := by
    unfold Undropped
    omega
  split_ifs with hin
  · exact hread.1 (hiff.mpr hin)
  · exact hread.2 fun hn => hin (hiff.mp hn)

/-! ## The price of one coin pair -/

/-- **When the price of a coin pair names its last feed.** With a feed in the block, a stored price must not be
used again; without one, a price that is not stored must not come from the feeds of earlier blocks. -/
structure Told (w : UInt64) (medianPrices : PriceDetailMap) (chain : Chain) (vptx : List CBaseTx)
    (p : PriceCoinPair) : Prop where
  feed : (recorded ⟨chain.length, vptx⟩ p).isSome → (medianPrices.find? p).isSome →
    ¬Vanishes (recentPrices p (windowSize w) (vptx :: chain))
  noFeed : recorded ⟨chain.length, vptx⟩ p = none → medianPrices.find? p = none →
    recentPrices p (windowSize w) (vptx :: chain) = [] ∨ Vanishes (recentPrices p (windowSize w) (vptx :: chain))

section Pair

variable {w : UInt64} (hw : 0 < w.toNat) {chain : Chain} {root : CoinPricePointMap}
  (hroot : Holds (Undropped w chain) chain root) {vptx : List CBaseTx} {p : PriceCoinPair}

include hw hroot in
theorem price_eq_zero_iff (hpos : PositivePrices (vptx :: chain)) :
    (computeBlockMedianPrice (blockCaches root chain vptx) chain.length w p).price = 0 ↔
      recentPrices p (windowSize w) (vptx :: chain) = [] ∨
        Vanishes (recentPrices p (windowSize w) (vptx :: chain)) := by
  rw [computeBlockMedianPrice_price, windowPrices_connect hw hroot, computeMedianNumber_eq_zero_iff]
  exact hpos.recentPrices_pos

variable (vptx p) in
include hw hroot in
theorem lastFeedHeight_eq :
    (computeBlockMedianPrice (blockCaches root chain vptx) chain.length w p).lastFeedHeight =
      if (recorded ⟨chain.length, vptx⟩ p).isSome then chain.length else 0 := by
  have hown := (find?_getBlockUserPrices_connect hroot vptx p chain.length).1 (.inl rfl)
  rw [computeBlockMedianPrice_lastFeedHeight, hown, recordedAt, if_pos rfl]
  split_ifs with hread hfeed hfeed
  · rfl
  · exact absurd hread.2 hfeed
  · exact (Nat.eq_zero_of_not_pos fun hlen => hread ⟨by omega, hfeed⟩).symm
  · rfl

variable (hpos : PositivePrices (vptx :: chain)) {medianPrices : PriceDetailMap}
  (hlast : LastFeeds chain medianPrices)

include hw hroot hpos hlast in
theorem told_iff_of_feed (hprice : ∀ detail, medianPrices.find? p = some detail → detail.price ≠ 0)
    (hfeed : (recorded ⟨chain.length, vptx⟩ p).isSome) {detail : CMedianPriceDetail}
    (hdetail : getMedianPrice medianPrices (blockCaches root chain vptx) chain.length w p = detail) :
    (detail.price ≠ 0 → IsGreatest (feedHeights (vptx :: chain) p) detail.lastFeedHeight) ↔
      Told w medianPrices chain vptx p := by
  have hzero := price_eq_zero_iff hw hroot (p := p) hpos
  have hheight := lastFeedHeight_eq hw hroot vptx p
  have hnew := isGreatest_feedHeights_cons hfeed
  have hnotNone : recorded ⟨chain.length, vptx⟩ p ≠ none := Option.isSome_iff_ne_none.mp hfeed
  rw [if_pos hfeed] at hheight
  cases hstored : medianPrices.find? p with
  | none =>
    rw [getMedianPrice_of_none hstored] at hdetail
    subst hdetail
    refine iff_of_true (fun _ => ?_) ⟨fun _ hs => absurd hs (by simp [hstored]), fun hn => absurd hn hnotNone⟩
    rw [hheight]
    exact hnew
  | some latest =>
    have hold := lt_of_mem_feedHeights (hlast p latest hstored).1
    have hsize : 0 < windowSize w := by
      unfold windowSize
      omega
    have hread := recentPrices_ne_nil hsize (List.ne_nil_of_length_pos (Nat.zero_lt_of_lt hold)) hfeed
    by_cases hcomputed : (computeBlockMedianPrice (blockCaches root chain vptx) chain.length w p).price = 0
    · -- the stored price is used again
      rw [getMedianPrice_of_zero hstored hcomputed] at hdetail
      subst hdetail
      refine iff_of_false (fun h => ?_) fun h => ?_
      · exact absurd ((h (hprice latest hstored)).2 hnew.1) (Nat.not_le.mpr hold)
      · exact h.feed hfeed (by rw [hstored]; rfl) ((hzero.mp hcomputed).resolve_left hread)
    · refine iff_of_true (fun _ => ?_) ⟨fun _ _ hv => hcomputed (hzero.mpr (.inr hv)), fun hn => absurd hn hnotNone⟩
      rw [← hdetail, lastFeedHeight_getMedianPrice hstored hcomputed, if_pos hheight]
      exact hnew

include hw hroot hpos hlast in
theorem told_iff_of_no_feed (hfeed : recorded ⟨chain.length, vptx⟩ p = none) {detail : CMedianPriceDetail}
    (hdetail : getMedianPrice medianPrices (blockCaches root chain vptx) chain.length w p = detail) :
    (detail.price ≠ 0 → IsGreatest (feedHeights (vptx :: chain) p) detail.lastFeedHeight) ↔
      Told w medianPrices chain vptx p := by
  have hzero := price_eq_zero_iff hw hroot (p := p) hpos
  have hheight := lastFeedHeight_eq hw hroot vptx p
  have hfeeds := feedHeights_cons_of_none hfeed
  have hnot : ¬(recorded ⟨chain.length, vptx⟩ p).isSome := by simp [hfeed]
  rw [if_neg hnot] at hheight
  cases hstored : medianPrices.find? p with
  | none =>
    rw [getMedianPrice_of_none hstored] at hdetail
    subst hdetail
    by_cases hcomputed : (computeBlockMedianPrice (blockCaches root chain vptx) chain.length w p).price = 0
    · exact iff_of_true (fun hne => absurd hcomputed hne) ⟨fun hs => absurd hs hnot, fun _ _ => hzero.mp hcomputed⟩
    · -- a median of feeds of earlier blocks, with the height 0
      refine iff_of_false (fun h => ?_) fun h => hcomputed (hzero.mpr (h.noFeed hfeed hstored))
      obtain ⟨x, hx, hpos⟩ := exists_feed_of_recentPrices fun hnil => hcomputed (hzero.mpr (.inl hnil))
      exact absurd ((h hcomputed).2 hx) (by rw [hheight]; exact Nat.not_le.mpr hpos)
  | some latest =>
    have hgreatest := hlast p latest hstored
    have hchain := Nat.zero_lt_of_lt (lt_of_mem_feedHeights hgreatest.1)
    refine iff_of_true (fun _ => ?_) ⟨fun hs => absurd hs hnot, fun _ hs => absurd hs (by simp [hstored])⟩
    rw [hfeeds, ← hdetail]
    by_cases hcomputed : (computeBlockMedianPrice (blockCaches root chain vptx) chain.length w p).price = 0
    · rw [getMedianPrice_of_zero hstored hcomputed]
      exact hgreatest
    · rw [lastFeedHeight_getMedianPrice hstored hcomputed, if_neg (by rw [hheight]; exact hchain.ne)]
      exact hgreatest

include hw hroot hpos hlast in
/-- **The price of one coin pair** names its last feed exactly then. -/
theorem isGreatest_iff_told (hprice : ∀ detail, medianPrices.find? p = some detail → detail.price ≠ 0)
    {detail : CMedianPriceDetail}
    (hdetail : getMedianPrice medianPrices (blockCaches root chain vptx) chain.length w p = detail) :
    (detail.price ≠ 0 → IsGreatest (feedHeights (vptx :: chain) p) detail.lastFeedHeight) ↔
      Told w medianPrices chain vptx p := by
  cases hfeed : recorded ⟨chain.length, vptx⟩ p with
  | some prices => exact told_iff_of_feed hw hroot hpos hlast hprice (by rw [hfeed]; rfl) hdetail
  | none => exact told_iff_of_no_feed hw hroot hpos hlast hfeed hdetail

end Pair

/-! ## Runs -/

section Runs

variable {Asset : Type} [CAsset Asset] [DbUtil Asset] [PriceFeedConfig]

/-- The prices are positive, and the height is one of a block. -/
def FeedNode.Allowed (s : FeedNode Asset) : FeedOp Asset → Prop
  | .connect block => s.chain.length < 2 ^ 31 ∧
    ∀ txUid pps, CBaseTx.priceFeed txUid pps ∈ block.vptx → ∀ pp ∈ pps, 0 < pp.price
  | .disconnect => True

/-- **When the result of a block names the last feeds**: it does so for every active coin pair. No block is undone
with a window that is a multiple of `2 ^ 32`, as `UndoBlock` then loads the prices of that block again. -/
def FeedNode.Tells (w : UInt64) (s : FeedNode Asset) : FeedOp Asset → Prop
  | .connect block => (block.dataBefore s.data).AssetsExist → ∀ p, (block.dataBefore s.data).Active p →
    Told w s.data.medianPrices s.chain block.vptx p
  | .disconnect => castHeight w ≠ 0

/-- What every step keeps. -/
structure Consistent (w : UInt64) (s : FeedNode Asset) : Prop where
  holds : Holds (Undropped w s.chain) s.chain s.root
  short : s.chain.length ≤ 2 ^ 31
  positive : PositivePrices s.chain
  prices : ∀ data ∈ s.data :: s.undos, ∀ p detail, data.medianPrices.find? p = some detail → detail.price ≠ 0

/-- What undoing the blocks of a chain restores names the last feeds. -/
def UndoLastFeeds : Chain → List (PriceFeedData Asset) → Prop
  | _ :: chain, data :: undos => LastFeeds chain data.medianPrices ∧ UndoLastFeeds chain undos
  | _, _ => True

theorem medianPrices_change (data : PriceFeedData Asset) (c : FeedChange Asset) :
    (data.change c).medianPrices = data.medianPrices := by
  cases c with
  | addFeedCoinPair coinPair =>
    rw [PriceFeedData.change, PriceFeedData.addFeedCoinPair]
    split_ifs <;> rfl
  | eraseFeedCoinPair coinPair =>
    rw [PriceFeedData.change, PriceFeedData.eraseFeedCoinPair]
    split_ifs
    · rfl
    · dsimp only
      split_ifs <;> rfl
  | setAsset asset => rfl

theorem medianPrices_foldl_change (data : PriceFeedData Asset) (changes : List (FeedChange Asset)) :
    (changes.foldl PriceFeedData.change data).medianPrices = data.medianPrices := by
  induction changes generalizing data with
  | nil => rfl
  | cons c changes ih => rw [List.foldl_cons, ih, medianPrices_change]

/-! ### What a step does -/

theorem step_connect {w : UInt64} {s s' : FeedNode Asset} {block : PricedBlock Asset}
    (h : s.step w (.connect block) = some s') : ∃ medianPrices root, s.calc w block = some medianPrices ∧
      connectBlock w s.chain block.vptx s.root = some root ∧ s'.chain = block.vptx :: s.chain ∧ s'.root = root ∧
        s'.data.medianPrices = medianPrices ∧ s'.undos = s.data :: s.undos := by
  obtain ⟨medianPrices, hcalc, h⟩ := Option.bind_eq_some_iff.mp h
  obtain ⟨root, hroot, rfl⟩ := Option.map_eq_some_iff.mp h
  exact ⟨medianPrices, root, hcalc, hroot, rfl, rfl, medianPrices_foldl_change _ _, rfl⟩

theorem step_disconnect {w : UInt64} {s s' : FeedNode Asset} (h : s.step w .disconnect = some s') :
    ∃ vptx, s.chain = vptx :: s'.chain ∧ s.undos = s'.data :: s'.undos ∧
      disconnectBlock w s'.chain vptx s.root = some s'.root := by
  obtain ⟨chain, root, data, undos⟩ := s
  match chain, undos with
  | vptx :: chain, data' :: undos =>
    obtain ⟨root', hroot, rfl⟩ := Option.map_eq_some_iff.mp h
    exact ⟨vptx, rfl, rfl, hroot⟩

omit [CAsset Asset] [DbUtil Asset] [PriceFeedConfig] in
theorem consistent_start (w : UInt64) (data : PriceFeedData Asset) : Consistent w (FeedNode.start data) where
  holds := ⟨fun h hh => absurd hh.1 (Nat.not_lt_zero h), fun _ _ _ => rfl⟩
  short := Nat.zero_le _
  positive h p prices hp := absurd hp (by simp [FeedNode.start, recordedAt])
  prices data' hdata p detail hp := by
    obtain rfl := List.mem_singleton.mp hdata
    have hempty : (∅ : PriceDetailMap).find? p = some detail := hp
    exact absurd hempty (by simp)

theorem consistent_connect {w : UInt64} {s s' : FeedNode Asset} {block : PricedBlock Asset}
    (hs : Consistent w s) (hop : s.Allowed (.connect block)) (h : s.step w (.connect block) = some s') :
    Consistent w s' := by
  obtain ⟨medianPrices, root, hcalc, hroot, hchain, hroot', hmedian, hundos⟩ := step_connect h
  obtain ⟨root', hconnect, hholds⟩ := holds_connectBlock hs.holds w block.vptx fun hlt =>
    slideSteps_eq (hlt.trans_le hs.short)
  obtain rfl : root = root' := Option.some.inj (hroot.symm.trans hconnect)
  refine ⟨?_, ?_, ?_, ?_⟩
  · rw [hchain, hroot']
    refine hholds.congr fun x => .inl ?_
    unfold Undropped
    rw [List.length_cons]
    omega
  · rw [hchain]
    exact hop.1
  · rw [hchain]
    exact hs.positive.cons hop.2
  · rw [hundos]
    refine List.forall_mem_cons.mpr ⟨fun p detail hdetail => ?_, hs.prices⟩
    rw [hmedian] at hdetail
    exact ((PriceFeedData.find?_calcMedianPriceDetails hcalc).mp hdetail).2.1

theorem consistent_disconnect {w : UInt64} (hw : castHeight w ≠ 0) {s s' : FeedNode Asset} (hs : Consistent w s)
    (h : s.step w .disconnect = some s') : Consistent w s' := by
  obtain ⟨vptx, hchain, hundos, hroot⟩ := step_disconnect h
  obtain ⟨hholds, hshort, hpositive, hprices⟩ := hs
  rw [hchain] at hholds hshort hpositive
  rw [hundos] at hprices
  rw [List.length_cons] at hshort
  obtain ⟨root', hdisconnect, hholds'⟩ := holds_disconnectBlock hholds w
    (fun hlt => slideSteps_eq (hlt.trans_le (Nat.le_of_succ_le hshort))) (Nat.pos_of_ne_zero hw) fun hlt => by
      unfold Undropped
      rw [List.length_cons]
      omega
  obtain hroot' : s'.root = root' := Option.some.inj (hroot.symm.trans hdisconnect)
  refine ⟨?_, Nat.le_of_succ_le hshort, hpositive.tail, (List.forall_mem_cons.mp hprices).2⟩
  rw [hroot']
  refine hholds'.congr fun x => .inl ?_
  unfold Undropped
  rw [List.length_cons]
  omega

/-- **The stored prices name the last feeds** after a step that leaves new ones with it. -/
theorem undoLastFeeds_step {w : UInt64} {s s' : FeedNode Asset} {op : FeedOp Asset}
    (hs : LastFeeds s.chain s.data.medianPrices ∧ UndoLastFeeds s.chain s.undos) (h : s.step w op = some s')
    (hs' : LastFeeds s'.chain s'.data.medianPrices) :
    LastFeeds s'.chain s'.data.medianPrices ∧ UndoLastFeeds s'.chain s'.undos := by
  refine ⟨hs', ?_⟩
  cases op with
  | connect block =>
    obtain ⟨medianPrices, root, hcalc, hroot, hchain, hroot', hmedian, hundos⟩ := step_connect h
    rw [hchain, hundos]
    exact hs
  | disconnect =>
    obtain ⟨vptx, hchain, hundos, hroot⟩ := step_disconnect h
    have hundo := hs.2
    rw [hchain, hundos] at hundo
    exact hundo.2

theorem find?_calc {w : UInt64} {s : FeedNode Asset} {block : PricedBlock Asset} {medianPrices : PriceDetailMap}
    (h : s.calc w block = some medianPrices) {p : PriceCoinPair} {detail : CMedianPriceDetail} :
    medianPrices.find? p = some detail ↔ (block.dataBefore s.data).Active p ∧ detail.price ≠ 0 ∧
      getMedianPrice s.data.medianPrices (blockCaches s.root s.chain block.vptx) s.chain.length w p = detail := by
  have hstored : (block.dataBefore s.data).medianPrices = s.data.medianPrices := medianPrices_foldl_change _ _
  rw [← hstored]
  exact PriceFeedData.find?_calcMedianPriceDetails h

/-- **The result of a block** names the last feeds if it does so for every active coin pair. -/
theorem lastFeeds_calc_iff {w : UInt64} (hw : 0 < w.toNat) {s : FeedNode Asset} (hs : Consistent w s)
    (hlast : LastFeeds s.chain s.data.medianPrices) {block : PricedBlock Asset} (hop : s.Allowed (.connect block))
    {medianPrices : PriceDetailMap} (hcalc : s.calc w block = some medianPrices) :
    LastFeeds (block.vptx :: s.chain) medianPrices ↔ ∀ p, (block.dataBefore s.data).Active p →
      Told w s.data.medianPrices s.chain block.vptx p := by
  have hpos := hs.positive.cons hop.2
  constructor
  · intro h p hactive
    refine (isGreatest_iff_told hw hs.holds hpos hlast (hs.prices _ List.mem_cons_self p) rfl).mp fun hprice => ?_
    exact h p _ ((find?_calc hcalc).mpr ⟨hactive, hprice, rfl⟩)
  · intro h p detail hdetail
    obtain ⟨hactive, hprice, hget⟩ := (find?_calc hcalc).mp hdetail
    exact (isGreatest_iff_told hw hs.holds hpos hlast (hs.prices _ List.mem_cons_self p) hget).mpr (h p hactive)
      hprice

/-- **One step**, of a node whose stored prices name the last feeds. -/
theorem lastFeeds_step_iff {w : UInt64} (hw : 0 < w.toNat) {s : FeedNode Asset} (hs : Consistent w s)
    (hlast : LastFeeds s.chain s.data.medianPrices ∧ UndoLastFeeds s.chain s.undos) {op : FeedOp Asset}
    (hop : s.Allowed op ∧ (op = .disconnect → castHeight w ≠ 0)) :
    (∀ s', s.step w op = some s' → LastFeeds s'.chain s'.data.medianPrices ∧ UndoLastFeeds s'.chain s'.undos) ↔
      s.Tells w op := by
  cases op with
  | connect block =>
    constructor
    · intro h hassets
      obtain ⟨medianPrices, hcalc⟩ := Option.isSome_iff_exists.mp
        (PriceFeedData.isSome_calcMedianPriceDetails_iff.mpr hassets)
      obtain ⟨root, hconnect, -⟩ := holds_connectBlock hs.holds w block.vptx fun hlt =>
        slideSteps_eq (hlt.trans_le hs.short)
      have hstep : ∃ s', s.step w (.connect block) = some s' :=
        ⟨_, Option.bind_eq_some_iff.mpr ⟨medianPrices, hcalc, Option.map_eq_some_iff.mpr ⟨root, hconnect, rfl⟩⟩⟩
      obtain ⟨s', hs'⟩ := hstep
      obtain ⟨medianPrices', root', hcalc', -, hchain, -, hmedian, -⟩ := step_connect hs'
      have hnew := (h s' hs').1
      rw [hchain, hmedian] at hnew
      exact (lastFeeds_calc_iff hw hs hlast.1 hop.1 hcalc').mp hnew
    · intro h s' hs'
      obtain ⟨medianPrices, root, hcalc, -, hchain, -, hmedian, -⟩ := step_connect hs'
      have hassets := PriceFeedData.isSome_calcMedianPriceDetails_iff.mp (Option.isSome_iff_exists.mpr ⟨_, hcalc⟩)
      refine undoLastFeeds_step hlast hs' ?_
      rw [hchain, hmedian]
      exact (lastFeeds_calc_iff hw hs hlast.1 hop.1 hcalc).mpr (h hassets)
  | disconnect =>
    refine iff_of_true (fun s' hs' => undoLastFeeds_step hlast hs' ?_) (hop.2 rfl)
    obtain ⟨vptx, hchain, hundos, -⟩ := step_disconnect hs'
    have hundo := hlast.2
    rw [hchain, hundos] at hundo
    exact hundo.1

/-- A run in which no block is undone with a window that is a multiple of `2 ^ 32`. -/
theorem forall_lastFeeds_iff {w : UInt64} (hw : 0 < w.toNat) (data : PriceFeedData Asset) {ops : List (FeedOp Asset)}
    (hops : AllSteps (FeedNode.step w) (fun s op => s.Allowed op ∧ (op = .disconnect → castHeight w ≠ 0))
      (.start data) ops) :
    (∀ ops', ops' <+: ops → ∀ s, run (FeedNode.step w) (.start data) ops' = some s →
      LastFeeds s.chain s.data.medianPrices) ↔ AllSteps (FeedNode.step w) (FeedNode.Tells w) (.start data) ops := by
  have hstart : LastFeeds (FeedNode.start data).chain (FeedNode.start data).data.medianPrices ∧
      UndoLastFeeds (FeedNode.start data).chain (FeedNode.start data).undos := by
    refine ⟨fun p detail hp => ?_, trivial⟩
    have hempty : (∅ : PriceDetailMap).find? p = some detail := hp
    exact absurd hempty (by simp)
  rw [forall_run_iff_part (FeedNode.step w)
    (I := fun s => LastFeeds s.chain s.data.medianPrices ∧ UndoLastFeeds s.chain s.undos) (fun _ hI => hI.1)
    (fun s op s' hI hs' hL => undoLastFeeds_step hI hs' hL) hstart]
  refine forall_run_iff_of_invariant (FeedNode.step w) (J := Consistent w) ?_
    (fun s op hJ hI hop => lastFeeds_step_iff hw hJ hI hop) (consistent_start w data) hstart hops
  intro s op s' hs hop hs'
  cases op with
  | connect block => exact consistent_connect hs hop.1 hs'
  | disconnect => exact consistent_disconnect (hop.2 rfl) hs hs'

/-- **The height of the last feed.** In every run of blocks and of their disconnections, the stored prices name the
last feeds after every step if all steps tell them; and only then, unless the window is a multiple of `2 ^ 32`. -/
theorem last_feed_height_iff {w : UInt64} (hw : 0 < w.toNat) (data : PriceFeedData Asset)
    {ops : List (FeedOp Asset)} (hops : AllSteps (FeedNode.step w) FeedNode.Allowed (.start data) ops) :
    (AllSteps (FeedNode.step w) (FeedNode.Tells w) (.start data) ops →
      ∀ ops', ops' <+: ops → ∀ s, run (FeedNode.step w) (.start data) ops' = some s →
        LastFeeds s.chain s.data.medianPrices) ∧
    (castHeight w ≠ 0 →
      (∀ ops', ops' <+: ops → ∀ s, run (FeedNode.step w) (.start data) ops' = some s →
        LastFeeds s.chain s.data.medianPrices) →
      AllSteps (FeedNode.step w) (FeedNode.Tells w) (.start data) ops) := by
  constructor
  · intro htells
    refine (forall_lastFeeds_iff hw data ?_).mpr htells
    rw [allSteps_iff_run] at hops htells ⊢
    refine fun ops' op hpre s hrun => ⟨hops ops' op hpre s hrun, ?_⟩
    rintro rfl
    exact htells ops' .disconnect hpre s hrun
  · intro hcast
    refine (forall_lastFeeds_iff hw data ?_).mp
    exact allSteps_and _ hops (allSteps_of_forall _ (fun _ _ _ => hcast) _ _)

/-- Every run with positive prices is allowed, as long as heights fit. -/
theorem allowed_of_positive (w : UInt64) {s : FeedNode Asset} {ops : List (FeedOp Asset)}
    (hlen : s.chain.length + ops.length ≤ 2 ^ 31)
    (hpos : ∀ block, .connect block ∈ ops →
      ∀ txUid pps, CBaseTx.priceFeed txUid pps ∈ block.vptx → ∀ pp ∈ pps, 0 < pp.price) :
    AllSteps (FeedNode.step w) FeedNode.Allowed s ops := by
  induction ops generalizing s with
  | nil => trivial
  | cons op ops ih =>
    rw [List.length_cons] at hlen
    have hrest := fun block hblock => hpos block (List.mem_cons_of_mem op hblock)
    cases op with
    | connect block =>
      refine ⟨⟨by omega, hpos block List.mem_cons_self⟩, fun s' hs' => ih ?_ hrest⟩
      obtain ⟨medianPrices, root, -, -, hchain, -⟩ := step_connect hs'
      rw [hchain, List.length_cons]
      omega
    | disconnect =>
      refine ⟨trivial, fun s' hs' => ih ?_ hrest⟩
      obtain ⟨vptx, hchain, -⟩ := step_disconnect hs'
      rw [hchain, List.length_cons] at hlen
      omega

end Runs

namespace BigEndianKeys

/-- Symbols of up to 7 characters, and no coin pair that is always fed. -/
scoped instance : PriceFeedConfig where
  kPriceFeedCoinPairSet := ∅
  PERM_PRICE_FEED := 1
  MIN_TOKEN_SYMBOL_LEN := 1
  MAX_TOKEN_SYMBOL_LEN := 7

/-- No assets and no coin pairs. -/
def noFeeds : PriceFeedData (TokenSymbol ×ₗ Byte) := ⟨fun _ => none, ∅, ∅⟩

/-- A coin pair with a feed at height 1 is erased at height 2 and added again at height 3. -/
def reenter : List (FeedOp (TokenSymbol ×ₗ Byte)) :=
  [.connect ⟨[], [], []⟩,
    .connect ⟨[.setAsset (toLex ([87], 1)), .addFeedCoinPair feedPair], feedVptx 7, []⟩,
    .connect ⟨[.eraseFeedCoinPair feedPair], [.other], []⟩,
    .connect ⟨[.addFeedCoinPair feedPair], [.other], []⟩]

theorem positive_reenter (block : PricedBlock (TokenSymbol ×ₗ Byte)) (hblock : .connect block ∈ reenter) :
    ∀ txUid pps, CBaseTx.priceFeed txUid pps ∈ block.vptx → ∀ pp ∈ pps, 0 < pp.price := by
  intro txUid pps hmem pp hpp
  simp only [reenter, List.mem_cons, FeedOp.connect.injEq, List.not_mem_nil, or_false] at hblock
  rcases hblock with rfl | rfl | rfl | rfl
  · simp at hmem
  · simp only [feedVptx, List.mem_cons, List.not_mem_nil, reduceCtorEq, CBaseTx.priceFeed.injEq, false_or,
      or_false] at hmem
    obtain ⟨rfl, rfl⟩ := hmem
    obtain rfl := List.mem_singleton.mp hpp
    decide
  · simp at hmem
  · simp at hmem

/-- The blocks of `reenter`, with a window of 3. -/
theorem last_feed_height_iff_reenter :
    (AllSteps (FeedNode.step 3) (FeedNode.Tells 3) (.start noFeeds) reenter →
      ∀ ops', ops' <+: reenter → ∀ s, run (FeedNode.step 3) (.start noFeeds) ops' = some s →
        LastFeeds s.chain s.data.medianPrices) ∧
    (castHeight 3 ≠ 0 →
      (∀ ops', ops' <+: reenter → ∀ s, run (FeedNode.step 3) (.start noFeeds) ops' = some s →
        LastFeeds s.chain s.data.medianPrices) →
      AllSteps (FeedNode.step 3) (FeedNode.Tells 3) (.start noFeeds) reenter) :=
  last_feed_height_iff (by decide) noFeeds (allowed_of_positive 3 (by decide) positive_reenter)

/-- **A coin pair that comes back has forgotten its last feed**: the price that was fed at height 1 is
stored at height 3 with the height 0. -/
theorem reentered_pair_forgets :
    ¬∀ s, run (FeedNode.step 3) (.start noFeeds) reenter = some s → LastFeeds s.chain s.data.medianPrices := by
  intro h
  have hread : ((run (FeedNode.step 3) (.start noFeeds) reenter).bind fun s =>
      (s.data.medianPrices.find? feedPair).map CMedianPriceDetail.lastFeedHeight) = some 0 := by decide +kernel
  have hfed : ((run (FeedNode.step 3) (.start noFeeds) reenter).map fun s =>
      (recordedAt s.chain 1 feedPair).isSome) = some true := by decide +kernel
  obtain ⟨s, hs, hread⟩ := Option.bind_eq_some_iff.mp hread
  obtain ⟨detail, hdetail, hheight⟩ := Option.map_eq_some_iff.mp hread
  rw [hs] at hfed
  have hle : 1 ≤ detail.lastFeedHeight := (h s hs feedPair detail hdetail).2 (Option.some.inj hfed)
  rw [hheight] at hle
  exact absurd hle (by decide)

end BigEndianKeys

end Inery
