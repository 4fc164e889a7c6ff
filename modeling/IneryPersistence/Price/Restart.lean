import IneryPersistence.Price.Window

/-!
# Median prices after a restart

* `computeMedianNumber`, `computeBlockMedianPrice`: the median of the prices in a window;
* `runningCache`: the cache of a node that connected every block, each with the window then in force;
* `holds_runningCache`: it holds the heights that no block has dropped;
* **`restart_agrees_iff`**: a restarted node computes the same prices exactly if no height of its window
  was dropped.
-/

namespace Inery

open KV

/-- A median price and the height of the last feed. -/
structure CMedianPriceDetail where
  price : UInt64
  lastFeedHeight : HeightType

/-- `ComputeMedianNumber`, with the number of prices in a `uint32_t`. -/
def computeMedianNumber (numbers : List UInt64) : UInt64 :=
  let size := numbers.length % 2 ^ 32
  if size < 2 then if size = 0 then 0 else numbers.getD 0 0
  else
    let numbers := numbers.mergeSort fun a b => a ≤ b
    if size % 2 = 0 then (numbers.getD (size / 2 - 1) 0 + numbers.getD (size / 2) 0) / 2
    else numbers.getD (size / 2) 0

/-- The prices at the `count` heights above `beginBlockHeight`, from the highest one down. -/
def windowPrices (blockUserPrices : BlockUserPriceMap) (beginBlockHeight : ℕ) : ℕ → List UInt64
  | 0 => []
  | count + 1 =>
    (match blockUserPrices.find? (beginBlockHeight + count + 1) with
      | some prices => prices.entries.map Prod.snd
      | none => []) ++ windowPrices blockUserPrices beginBlockHeight count

/-- `ComputeBlockMedianPrice`, of the prices that the caches hold. -/
def computeBlockMedianPrice (caches : List CoinPricePointMap) (blockHeight : ℕ) (slideWindow : UInt64)
    (coinPricePair : PriceCoinPair) : CMedianPriceDetail :=
  let blockUserPrices := getBlockUserPrices caches coinPricePair
  if blockUserPrices.entries.isEmpty then ⟨0, 0⟩
  else
    let beginBlockHeight := blockHeight - slideWindow.toNat
    { price := computeMedianNumber
        (windowPrices blockUserPrices beginBlockHeight (blockHeight - beginBlockHeight))
      lastFeedHeight :=
        if beginBlockHeight < blockHeight ∧ (blockUserPrices.find? blockHeight).isSome then blockHeight
        else 0 }

theorem windowPrices_congr {m m' : BlockUserPriceMap} {beginBlockHeight count : ℕ}
    (h : ∀ x, beginBlockHeight < x → x ≤ beginBlockHeight + count → m.find? x = m'.find? x) :
    windowPrices m beginBlockHeight count = windowPrices m' beginBlockHeight count := by
  induction count with
  | zero => rfl
  | succ count ih =>
    rw [windowPrices, windowPrices, h _ (by omega) (by omega), ih fun x hx hx' => h x hx (by omega)]

theorem windowPrices_empty (beginBlockHeight count : ℕ) : windowPrices ∅ beginBlockHeight count = [] := by
  induction count with
  | zero => rfl
  | succ count ih =>
    rw [windowPrices, ih]
    rfl

theorem windowPrices_single {m : BlockUserPriceMap} {beginBlockHeight count h : ℕ} {prices : UserPrices}
    (hprices : m.find? h = some prices) (hother : ∀ x : ℕ, x ≠ h → m.find? x = none)
    (hlow : beginBlockHeight < h) (hhigh : h ≤ beginBlockHeight + count) :
    windowPrices m beginBlockHeight count = prices.entries.map Prod.snd := by
  induction count with
  | zero => omega
  | succ count ih =>
    rw [windowPrices]
    by_cases hh : beginBlockHeight + count + 1 = h
    · have hrest : windowPrices m beginBlockHeight count = [] := by
        rw [← windowPrices_empty beginBlockHeight count]
        exact windowPrices_congr fun x _ hx => hother x (by omega)
      rw [hh, hprices, hrest, List.append_nil]
    · rw [hother _ hh, ih (by omega), List.nil_append]

/-- **The price is the median of the window**, also when nothing is held at all. -/
theorem computeBlockMedianPrice_price (caches : List CoinPricePointMap) (blockHeight : ℕ) (w : UInt64)
    (p : PriceCoinPair) :
    (computeBlockMedianPrice caches blockHeight w p).price = computeMedianNumber
      (windowPrices (getBlockUserPrices caches p) (blockHeight - w.toNat)
        (blockHeight - (blockHeight - w.toNat))) := by
  rw [computeBlockMedianPrice]
  by_cases he : (getBlockUserPrices caches p).entries.isEmpty
  · rw [if_pos he, SortedMap.eq_empty_of_entries (List.isEmpty_iff.mp he), windowPrices_empty]
    rfl
  · rw [if_neg he]

theorem computeBlockMedianPrice_lastFeedHeight (caches : List CoinPricePointMap) (blockHeight : ℕ) (w : UInt64)
    (p : PriceCoinPair) :
    (computeBlockMedianPrice caches blockHeight w p).lastFeedHeight =
      if blockHeight - w.toNat < blockHeight ∧ ((getBlockUserPrices caches p).find? blockHeight).isSome then
        blockHeight
      else 0 := by
  rw [computeBlockMedianPrice]
  by_cases he : (getBlockUserPrices caches p).entries.isEmpty
  · rw [if_pos he, SortedMap.eq_empty_of_entries (List.isEmpty_iff.mp he)]
    simp
  · rw [if_neg he]

/-! ## The running node -/

/-- The root of a node that connected the blocks of a chain one after the other, each with the window
that was in force at its height. -/
def runningCache (slideWindow : ℕ → UInt64) : Chain → Option CoinPricePointMap
  | [] => some ∅
  | vptx :: pprev => (runningCache slideWindow pprev).bind (connectBlock (slideWindow pprev.length) pprev vptx)

/-- A height that no block of the chain has dropped. -/
def Kept (slideWindow : ℕ → UInt64) (chain : Chain) (h : ℕ) : Prop :=
  h < chain.length ∧ ∀ H < chain.length, castHeight (slideWindow H) < H →
    h ≠ H - castHeight (slideWindow H)

/-- **What a running node holds.** -/
theorem holds_runningCache (slideWindow : ℕ → UInt64) {chain : Chain} (hlen : chain.length ≤ 2 ^ 31) :
    ∃ root, runningCache slideWindow chain = some root ∧ Holds (Kept slideWindow chain) chain root := by
  induction chain with
  | nil => exact ⟨∅, rfl, fun h hh => absurd hh.1 (Nat.not_lt_zero h), fun _ _ _ => rfl⟩
  | cons vptx pprev ih =>
    rw [List.length_cons] at hlen
    obtain ⟨root, hrun, hroot⟩ := ih (by omega)
    obtain ⟨root', hconnect, hholds⟩ := holds_connectBlock hroot (slideWindow pprev.length) vptx
      fun hlt => slideSteps_eq (by omega)
    refine ⟨root', by rw [runningCache, hrun]; exact hconnect, hholds.congr fun h => .inl ?_⟩
    rw [Kept, Kept, List.length_cons]
    constructor
    · rintro ⟨hor, hnot⟩
      refine ⟨by omega, fun H hH hcast => ?_⟩
      rcases Nat.lt_succ_iff_lt_or_eq.mp hH with hH | rfl
      · rcases hor with rfl | hS
        · omega
        · exact hS.2 H hH hcast
      · exact fun he => hnot ⟨hcast, he⟩
    · rintro ⟨hle, hall⟩
      refine ⟨?_, fun hn => hall _ (Nat.lt_succ_self _) hn.1 hn.2⟩
      rcases Nat.lt_succ_iff_lt_or_eq.mp hle with hlt | rfl
      · exact .inr ⟨hlt, fun H hH => hall H (Nat.lt_succ_of_lt hH)⟩
      · exact .inl rfl

/-! ## Agreement -/

/-- A chain of `n` blocks of which only the one at height `h` has a feed. -/
def singleFeed (h : ℕ) : ℕ → Chain
  | 0 => []
  | n + 1 => (if n = h then feedVptx 1 else []) :: singleFeed h n

theorem length_singleFeed (h n : ℕ) : (singleFeed h n).length = n := by
  induction n with
  | zero => rfl
  | succ n ih => rw [singleFeed, List.length_cons, ih]

/-- The coin pair that `feedVptx` is about. -/
def feedPair : PriceCoinPair := toLex ([87], [85])

/-- The prices of a block with one feed. -/
def feedPrices : UserPrices := (∅ : UserPrices).insert (toLex (1, 1)) 1

theorem recorded_feedVptx (h : ℕ) : recorded ⟨h, feedVptx 1⟩ feedPair = some feedPrices := by
  have hadd : addPriceByBlock [] ⟨h, feedVptx 1⟩ ∅ = modify ∅ feedPair fun cbp =>
      cbp.addUserPrice h (toLex (1, 1)) 1 := rfl
  rw [recorded, hadd, userPricesAt_addUserPrice, if_pos ⟨rfl, rfl⟩]
  rfl

theorem recordedAt_singleFeed (h n x : ℕ) :
    recordedAt (singleFeed h n) x feedPair = if x = h ∧ x < n then some feedPrices else none := by
  induction n with
  | zero => simp [singleFeed, recordedAt]
  | succ n ih =>
    rw [singleFeed, recordedAt, length_singleFeed, ih]
    by_cases hx : x = n
    · subst hx
      rw [if_pos rfl]
      by_cases hh : x = h
      · rw [if_pos hh, if_pos ⟨hh, Nat.lt_succ_self x⟩, recorded_feedVptx]
      · rw [if_neg hh, if_neg fun hn => hh hn.1]
        rfl
    · rw [if_neg hx]
      by_cases hin : x = h ∧ x < n
      · rw [if_pos hin, if_pos ⟨hin.1, Nat.lt_succ_of_lt hin.2⟩]
      · rw [if_neg hin, if_neg fun hn => hin ⟨hn.1, by omega⟩]

open scoped Classical in
theorem find?_singleFeed {S : ℕ → Prop} {fed n : ℕ} (hfed : fed < n) {root : CoinPricePointMap}
    (hroot : Holds S (singleFeed fed n) root) (x : ℕ) : (getBlockUserPrices [root] feedPair).find? x =
      if x = fed ∧ S fed then some feedPrices else none := by
  rw [hroot.find?_getBlockUserPrices, recordedAt_singleFeed]
  by_cases hx : x = fed
  · subst hx
    simp [hfed]
  · simp [hx]

/-- **A dropped height is read by a restarted node only.** -/
theorem price_ne_of_dropped {slideWindow : ℕ → UInt64} {w : UInt64} {n H : ℕ} (hH : H < n)
    (hcast : castHeight (slideWindow H) < H) (hdropped : n - w.toNat < H - castHeight (slideWindow H))
    {root : CoinPricePointMap} (hroot : Holds (Kept slideWindow (singleFeed (H - castHeight (slideWindow H)) n))
      (singleFeed (H - castHeight (slideWindow H)) n) root) :
    (computeBlockMedianPrice [root] n w feedPair).price ≠
      (computeBlockMedianPrice [releadBlocks w 0 (singleFeed (H - castHeight (slideWindow H)) n) ∅] n w
        feedPair).price := by
  classical
  have hlen := length_singleFeed (H - castHeight (slideWindow H)) n
  have hfed : H - castHeight (slideWindow H) < n := by omega
  have hin : InWindow w (singleFeed (H - castHeight (slideWindow H)) n) (H - castHeight (slideWindow H)) := by
    rw [InWindow, hlen]
    omega
  have hrunning : ∀ x : ℕ, (getBlockUserPrices [root] feedPair).find? x = none := fun x =>
    (find?_singleFeed hfed hroot x).trans (if_neg fun hn => hn.2.2 H (hlen.symm ▸ hH) hcast rfl)
  have hrestarted := find?_singleFeed hfed (holds_releadBlocks w _)
  have hnil : windowPrices (getBlockUserPrices [root] feedPair) (n - w.toNat) (n - (n - w.toNat)) = [] :=
    (windowPrices_congr fun x _ _ => hrunning x).trans (windowPrices_empty _ _)
  rw [computeBlockMedianPrice_price, computeBlockMedianPrice_price, hnil,
    windowPrices_single ((hrestarted _).trans (if_pos ⟨rfl, hin⟩))
      (fun x hx => (hrestarted x).trans (if_neg fun hn => hx hn.1)) hdropped (by omega)]
  decide +kernel

/-- **A node that drops nothing of the window agrees with a restarted one.** -/
theorem find?_eq_of_kept {slideWindow : ℕ → UInt64} {w : UInt64} {chain : Chain}
    {root : CoinPricePointMap} (hroot : Holds (Kept slideWindow chain) chain root)
    (hkept : ∀ H < chain.length, castHeight (slideWindow H) < H →
      H - castHeight (slideWindow H) ≤ chain.length - w.toNat)
    (p : PriceCoinPair) {h : ℕ} (hh : chain.length - w.toNat < h) :
    (getBlockUserPrices [root] p).find? h =
      (getBlockUserPrices [releadBlocks w 0 chain ∅] p).find? h := by
  classical
  rw [hroot.find?_getBlockUserPrices, (holds_releadBlocks w chain).find?_getBlockUserPrices]
  by_cases hlt : h < chain.length
  · have hin : InWindow w chain h := ⟨hlt, by omega⟩
    have hkeep : Kept slideWindow chain h := ⟨hlt, fun H hH hcast he => by
      have hle := hkept H hH hcast
      omega⟩
    rw [if_pos hin, if_pos hkeep]
  · rw [recordedAt_of_le (Nat.le_of_not_lt hlt), ite_self, ite_self]

/-- **Restarting a node.** For every schedule of windows, a node that was running and a node that was
restarted with the window `w` compute the same prices on every chain exactly if no block dropped a height
that `w` still reads. -/
theorem restart_agrees_iff (slideWindow : ℕ → UInt64) (w : UInt64) {tip : ℕ} (htip : tip < 2 ^ 31) :
    (∀ chain : Chain, chain.length = tip + 1 → ∃ root, runningCache slideWindow chain = some root ∧
      ∀ p, (computeBlockMedianPrice [root] (tip + 1) w p).price =
        (computeBlockMedianPrice [releadBlocks w 0 chain ∅] (tip + 1) w p).price) ↔
      ∀ H ≤ tip, castHeight (slideWindow H) < H →
        H - castHeight (slideWindow H) ≤ tip + 1 - w.toNat := by
  constructor
  · intro hsame H hH hcast
    by_contra hdropped
    have hlen := length_singleFeed (H - castHeight (slideWindow H)) (tip + 1)
    obtain ⟨root, hrun, hprice⟩ := hsame _ hlen
    obtain ⟨root', hrun', hroot⟩ := holds_runningCache slideWindow (hlen.trans_le htip)
    obtain rfl := Option.some.inj (hrun.symm.trans hrun')
    exact price_ne_of_dropped (Nat.lt_succ_of_le hH) hcast (not_le.mp hdropped) hroot (hprice feedPair)
  · intro hkept chain hlen
    obtain ⟨root, hrun, hroot⟩ := holds_runningCache slideWindow (hlen.trans_le htip)
    refine ⟨root, hrun, fun p => ?_⟩
    rw [computeBlockMedianPrice_price, computeBlockMedianPrice_price]
    refine congrArg computeMedianNumber (windowPrices_congr fun h hh _ => ?_)
    rw [← hlen] at hh hkept
    exact find?_eq_of_kept hroot (fun H hH => hkept H (by omega)) p hh

/-- With a window of 2 blocks that never changes, nodes agree at height 9. -/
theorem restart_agrees_iff_constant :
    ∃ root, runningCache (fun _ => 2) (singleFeed 8 (9 + 1)) = some root ∧
      ∀ p, (computeBlockMedianPrice [root] (9 + 1) 2 p).price =
        (computeBlockMedianPrice [releadBlocks 2 0 (singleFeed 8 (9 + 1)) ∅] (9 + 1) 2 p).price :=
  (restart_agrees_iff (fun _ => 2) 2 (by decide)).mpr (by decide) (singleFeed 8 (9 + 1)) (length_singleFeed _ _)

/-- **Nodes disagree after the window was raised.** It is 1 up to height 3 and 4 from there on; the price
of the block at height 2 is read by a restarted node only. -/
theorem raised_window_disagrees :
    ∃ root ∈ runningCache (fun H => if H < 4 then 1 else 4) (singleFeed 2 5),
      (computeBlockMedianPrice [root] (4 + 1) 4 feedPair).price ≠
        (computeBlockMedianPrice [releadBlocks 4 0 (singleFeed 2 5) ∅] (4 + 1) 4 feedPair).price := by
  decide +kernel

end Inery
