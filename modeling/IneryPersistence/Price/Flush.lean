import IneryPersistence.Price.MemCache
import IneryPersistence.Lib.Runs

/-!
# Flushing the price point cache

* `PriceOp`, `priceStep`: additions, deletions and flushes on the levels of a stack of caches;
* `KeepsPrices`: a flush does not change the prices that can be read;
* `FlushSafe`: where a deletion is flushed, no prices appear from below, and where prices are flushed,
  the parent holds no others;
* **`flush_keeps_prices_iff`**: in every run, the flushes keep the prices exactly if they are safe.
-/

namespace Inery

open KV

/-- An operation on one level of a stack. -/
inductive PriceOp
  | addPrice (level : ℕ) (blockHeight : HeightType) (regId : IneryRegID) (pps : List IneryPricePoint)
  | deleteBlock (level : ℕ) (block : FeedBlock)
  | flush (level : ℕ)

/-- One operation on the caches of a stack, the top one first; `none` if there is no such level, or for
the flush of a cache without a base. -/
def priceStep (caches : List CoinPricePointMap) : PriceOp → Option (List CoinPricePointMap)
  | .addPrice level blockHeight regId pps =>
    match caches.drop level with
    | m :: bases => some (caches.set level (addPrice bases blockHeight regId pps m).2)
    | [] => none
  | .deleteBlock level block =>
    match caches.drop level with
    | m :: _ => some (caches.set level (deleteBlockFromCache block m))
    | [] => none
  | .flush level =>
    match caches.drop level with
    | m :: base :: _ => some ((caches.set level ∅).set (level + 1) (batchWrite base m))
    | _ => none

/-- A flush leaves the prices of the cache in its parent. -/
def KeepsPrices (coinPair : PriceCoinPair) (caches : List CoinPricePointMap) : PriceOp → Prop
  | .flush level => ∀ caches', priceStep caches (.flush level) = some caches' →
      getBlockUserPrices (caches'.drop (level + 1)) coinPair =
        getBlockUserPrices (caches.drop level) coinPair
  | _ => True

/-- Where the cache marks a deletion, what comes first below its parent is a deletion too, or there is
nothing; where it has prices, those of its parent are among them. -/
def FlushSafe (coinPair : PriceCoinPair) (caches : List CoinPricePointMap) : PriceOp → Prop
  | .flush level => ∀ m base bases, caches.drop level = m :: base :: bases →
      ∀ height, ∀ prices ∈ userPricesAt m coinPair height,
        if isEmpty prices then ∀ below ∈ topPrices coinPair height bases, isEmpty below
        else ∀ old ∈ userPricesAt base coinPair height, ∀ regId, ∀ price ∈ old.find? regId,
          price ∈ prices.find? regId
  | _ => True

theorem drop_flush {caches : List CoinPricePointMap} {level : ℕ} {m base : CoinPricePointMap}
    {bases : List CoinPricePointMap} (h : caches.drop level = m :: base :: bases) :
    ((caches.set level ∅).set (level + 1) (batchWrite base m)).drop (level + 1) =
      batchWrite base m :: bases := by
  have hdrop : caches.drop (level + 1) = base :: bases := by rw [← List.tail_drop, h, List.tail_cons]
  rw [List.drop_set, if_neg (lt_irrefl _), List.drop_set_of_lt (Nat.lt_succ_self level), hdrop,
    Nat.sub_self, List.set_cons_zero]

theorem emplaceAll_eq_iff (old prices : UserPrices) :
    emplaceAll old prices = prices ↔
      ∀ regId, ∀ price ∈ old.find? regId, price ∈ prices.find? regId := by
  constructor
  · intro h regId price hprice
    rw [← h, find?_emplaceAll, Option.mem_def.mp hprice]
    rfl
  · intro h
    refine SortedMap.ext_find? fun regId => ?_
    rw [find?_emplaceAll]
    cases ho : old.find? regId with
    | none => rfl
    | some price => exact (h regId price ho).symm

theorem live_topPrices_flush_iff (p : PriceCoinPair) (h : HeightType) (m base : CoinPricePointMap)
    (bases : List CoinPricePointMap) :
    live (topPrices p h (batchWrite base m :: bases)) = live (topPrices p h (m :: base :: bases)) ↔
      ∀ prices ∈ userPricesAt m p h,
        if isEmpty prices then ∀ below ∈ topPrices p h bases, isEmpty below
        else ∀ old ∈ userPricesAt base p h, ∀ regId, ∀ price ∈ old.find? regId,
          price ∈ prices.find? regId := by
  rw [topPrices, topPrices, topPrices, userPricesAt_batchWrite]
  cases userPricesAt m p h with
  | none => simp
  | some prices =>
    simp only [Option.elim_some, Option.some_or, Option.mem_def, Option.some.injEq, forall_eq']
    cases he : isEmpty prices with
    | true =>
      -- the deletion is not kept, and what is below the parent shows
      rw [written, if_pos he, Option.none_or, live_of_isEmpty he, live_eq_none_iff, if_pos rfl]
      rfl
    | false =>
      rw [written, if_neg (by simp [he]), Option.some_or, live_of_not_isEmpty he, live_eq_some_iff,
        and_iff_left he, Option.some.injEq, emplaceAll_eq_iff, if_neg (by simp)]
      cases userPricesAt base p h <;> simp

theorem keepsPrices_iff (p : PriceCoinPair) (caches : List CoinPricePointMap) (op : PriceOp) :
    KeepsPrices p caches op ↔ FlushSafe p caches op := by
  cases op with
  | addPrice | deleteBlock => rfl
  | flush level =>
    constructor
    · intro hkeeps m base bases hdrop h
      have hstep : priceStep caches (.flush level) =
          some ((caches.set level ∅).set (level + 1) (batchWrite base m)) := by rw [priceStep, hdrop]
      have hsame := congrArg (fun prices => prices.find? h) (hkeeps _ hstep)
      simp only [find?_getBlockUserPrices, drop_flush hdrop, hdrop] at hsame
      exact (live_topPrices_flush_iff p h m base bases).mp hsame
    · intro hsafe caches' hstep
      rw [priceStep] at hstep
      split at hstep
      · rename_i m base bases hdrop
        obtain rfl := Option.some.inj hstep
        refine SortedMap.ext_find? fun h => ?_
        rw [find?_getBlockUserPrices, find?_getBlockUserPrices, drop_flush hdrop, hdrop]
        exact (live_topPrices_flush_iff p h m base bases).mpr (hsafe m base bases hdrop h)
      · exact absurd hstep (by simp)

/-- **Flushing the price point cache.** In every run, from any stack, the flushes keep the prices of a
coin pair exactly if they are safe for it. -/
theorem flush_keeps_prices_iff (p : PriceCoinPair) (caches : List CoinPricePointMap) (ops : List PriceOp) :
    AllSteps priceStep (KeepsPrices p) caches ops ↔ AllSteps priceStep (FlushSafe p) caches ops :=
  allSteps_congr priceStep (keepsPrices_iff p) caches ops

/-- A block at height 5 in which one user feeds one price. -/
def feedBlock : FeedBlock :=
  ⟨5, [.other, .priceFeed (toLex (1, 1)) [⟨toLex ([87], [85]), 100⟩], .other]⟩

/-- **A deletion that is flushed into a middle cache is lost.** The root holds a price of a block, the
top cache deletes the block, and after the flush the price is back. -/
theorem flush_loses_deletion :
    ∃ caches ∈ run priceStep (List.replicate 3 ∅)
        [.addPrice 2 5 (toLex (1, 1)) [⟨toLex ([87], [85]), 100⟩], .deleteBlock 0 feedBlock],
      ∃ caches' ∈ priceStep caches (.flush 0),
        getBlockUserPrices (caches'.drop 1) (toLex ([87], [85])) ≠
          getBlockUserPrices (caches.drop 0) (toLex ([87], [85])) := by
  decide +kernel

end Inery
