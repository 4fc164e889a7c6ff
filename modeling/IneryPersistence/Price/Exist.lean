import IneryPersistence.Price.AddPrice

/-!
# Prices that exist and prices that are read

* `Covers`, `Covered`: where a cache knows the height of a coin pair, it has the users of the caches below;
* **`existsAsRead_iff`**: exactly then `ExistBlockUserPrice` finds what `GetBlockUserPrices` gives;
* `covered_addPrice_iff`, `covered_deleteBlockFromCache_iff`, `covered_flush`: which steps keep that;
* `MemOp`, `memStep`, `ExistSafe`: the steps with `PushBlock` and `UndoBlock`, and what keeps it;
* **`existsAsRead_run_iff`**: what exists is what can be read, in all states of a run.
-/

namespace Inery

open KV

/-! ## Caches that cover what is below -/

/-- Where `m` knows the height of a coin pair, it has a price of every user who has one below. -/
def Covers (m : CoinPricePointMap) (bases : List CoinPricePointMap) : Prop :=
  ∀ p h, ∀ prices ∈ userPricesAt m p h, ∀ r, existBlockUserPrice h r p bases = true →
    (prices.find? r).isSome

/-- Every cache of a stack covers those below it. -/
def Covered : List CoinPricePointMap → Prop
  | [] => True
  | m :: bases => Covers m bases ∧ Covered bases

/-- In the cache at every level, the prices that exist are those that can be read. -/
def ExistsAsRead (caches : List CoinPricePointMap) : Prop :=
  ∀ level p h r, existBlockUserPrice h r p (caches.drop level) = (priceOf (caches.drop level) p h r).isSome

theorem covers_iff {m : CoinPricePointMap} {bases : List CoinPricePointMap}
    (hbases : ∀ p h r, existBlockUserPrice h r p bases = (priceOf bases p h r).isSome) :
    (∀ p h r, existBlockUserPrice h r p (m :: bases) = (priceOf (m :: bases) p h r).isSome) ↔
      Covers m bases := by
  refine forall₂_congr fun p h => ?_
  simp only [existBlockUserPrice_cons, priceOf_cons]
  cases userPricesAt m p h with
  | none => simp [hbases]
  | some prices =>
    simp only [Option.bind_some, Option.elim_some, Option.mem_def, Option.some.injEq, forall_eq',
      Bool.or_eq_left_iff_imp]

/-- **When the prices that exist are those that can be read.** -/
theorem existsAsRead_iff (caches : List CoinPricePointMap) : ExistsAsRead caches ↔ Covered caches := by
  induction caches with
  | nil => exact iff_of_true (fun level p h r => by rw [List.drop_nil]; rfl) trivial
  | cons m bases ih =>
    rw [Covered, ← ih]
    constructor
    · intro hall
      have hbases : ExistsAsRead bases := fun level => hall (level + 1)
      exact ⟨(covers_iff (hbases 0)).mp (hall 0), hbases⟩
    · rintro ⟨hcovers, hbases⟩ level
      cases level with
      | zero => exact (covers_iff (hbases 0)).mpr hcovers
      | succ level => exact hbases level

theorem existBlockUserPrice_append (h : HeightType) (r : IneryRegID) (p : PriceCoinPair)
    (uppers rest : List CoinPricePointMap) :
    existBlockUserPrice h r p (uppers ++ rest) =
      (existBlockUserPrice h r p uppers || existBlockUserPrice h r p rest) := by
  induction uppers with
  | nil => rfl
  | cons u uppers ih => rw [List.cons_append, existBlockUserPrice, existBlockUserPrice, ih, Bool.or_assoc]

theorem covers_append {m : CoinPricePointMap} {uppers rest : List CoinPricePointMap} :
    Covers m (uppers ++ rest) ↔ Covers m uppers ∧ Covers m rest := by
  unfold Covers
  simp only [existBlockUserPrice_append, Bool.or_eq_true, or_imp, forall_and]

theorem covered_append {uppers rest : List CoinPricePointMap} :
    Covered (uppers ++ rest) ↔ Covered uppers ∧ Covered rest ∧ ∀ u ∈ uppers, Covers u rest := by
  induction uppers with
  | nil => simp [Covered]
  | cons u uppers ih =>
    rw [List.cons_append, Covered, Covered, ih, covers_append, List.forall_mem_cons]
    tauto

theorem covered_append_cons {uppers bases : List CoinPricePointMap} {m : CoinPricePointMap} :
    Covered (uppers ++ m :: bases) ↔
      Covered (uppers ++ bases) ∧ Covers m bases ∧ ∀ u ∈ uppers, Covers u [m] := by
  have hcons : ∀ u, Covers u (m :: bases) ↔ Covers u [m] ∧ Covers u bases := fun u =>
    @covers_append u [m] bases
  rw [covered_append, covered_append, Covered]
  simp only [hcons, forall_and]
  tauto

theorem covers_singleton {u m : CoinPricePointMap} : Covers u [m] ↔
    ∀ p h, ∀ prices ∈ userPricesAt u p h, ∀ prices' ∈ userPricesAt m p h, ∀ r,
      (prices'.find? r).isSome → (prices.find? r).isSome := by
  unfold Covers
  refine forall₂_congr fun p h => forall₂_congr fun prices hprices => ?_
  simp only [existBlockUserPrice_cons]
  cases userPricesAt m p h with
  | none => simp [existBlockUserPrice]
  | some prices' => simp [existBlockUserPrice]

/-! ## What the steps keep -/

section Steps

variable {uppers bases : List CoinPricePointMap} {m : CoinPricePointMap} {height : HeightType}

/-- Every point that is accepted is for a height that the cache knows, or that no cache below has a price
at, and the caches above that know the height have a price of the user. -/
def AddSafe (uppers bases : List CoinPricePointMap) (height : HeightType) (regId : IneryRegID)
    (pps : List IneryPricePoint) (m : CoinPricePointMap) : Prop :=
  ∀ pp ∈ accepted (fun p => existBlockUserPrice height regId p (m :: bases)) pps,
    ((userPricesAt m pp.coinPricePair height).isSome ∨
      ∀ r, existBlockUserPrice height r pp.coinPricePair bases = false) ∧
    ∀ u ∈ uppers, ∀ prices ∈ userPricesAt u pp.coinPricePair height, (prices.find? regId).isSome

section AddAll

variable {regId : IneryRegID} {pps : List IneryPricePoint}
  (hnodup : (pps.map IneryPricePoint.coinPricePair).Nodup)

include hnodup

variable (m height regId) in
theorem userPricesAt_addAll_self {pp : IneryPricePoint} (hpp : pp ∈ pps) :
    ∃ price, userPricesAt (addAll height regId pps m) pp.coinPricePair height =
      some (((userPricesAt m pp.coinPricePair height).getD ∅).insert regId price) := by
  rw [userPricesAt_addAll height regId hnodup, if_pos rfl]
  cases hl : listedPrice pps pp.coinPricePair with
  | none => exact absurd (List.mem_map_of_mem hpp) (listedPrice_eq_none_iff.mp hl)
  | some price => exact ⟨price, rfl⟩

theorem userPricesAt_addAll_of_not {p : PriceCoinPair} {h : HeightType}
    (hn : ¬(h = height ∧ ∃ pp ∈ pps, pp.coinPricePair = p)) :
    userPricesAt (addAll height regId pps m) p h = userPricesAt m p h := by
  rw [userPricesAt_addAll height regId hnodup]
  split_ifs with hh
  · have hnone : listedPrice pps p = none :=
      listedPrice_eq_none_iff.mpr fun hmem => hn ⟨hh, List.mem_map.mp hmem⟩
    rw [hnone]
    rfl
  · rfl

theorem covers_addAll_iff
    (hnew : ∀ pp ∈ pps, existBlockUserPrice height regId pp.coinPricePair bases = false) :
    Covers (addAll height regId pps m) bases ↔
      Covers m bases ∧ ∀ pp ∈ pps, (userPricesAt m pp.coinPricePair height).isSome ∨
        ∀ r, existBlockUserPrice height r pp.coinPricePair bases = false := by
  -- the user has no price below, so that its new price covers nothing
  have hne : ∀ pp ∈ pps, ∀ r, existBlockUserPrice height r pp.coinPricePair bases = true → r ≠ regId := by
    rintro pp hpp r hr rfl
    rw [hnew pp hpp] at hr
    exact absurd hr (by simp)
  constructor
  · intro hcovers
    refine ⟨fun p h prices hprices r hr => ?_, fun pp hpp => or_iff_not_imp_left.mpr fun hsome r => ?_⟩
    · by_cases hadd : h = height ∧ ∃ pp ∈ pps, pp.coinPricePair = p
      · obtain ⟨rfl, pp, hpp, rfl⟩ := hadd
        obtain ⟨price, hprice⟩ := userPricesAt_addAll_self m h regId hnodup hpp
        have := hcovers _ _ _ hprice r hr
        rwa [hprices, SortedMap.find?_insert_of_ne _ (hne pp hpp r hr)] at this
      · exact hcovers p h prices ((userPricesAt_addAll_of_not hnodup hadd).trans hprices) r hr
    · by_contra hr
      rw [Bool.not_eq_false] at hr
      obtain ⟨price, hprice⟩ := userPricesAt_addAll_self m height regId hnodup hpp
      have := hcovers _ _ _ hprice r hr
      rw [Option.not_isSome_iff_eq_none.mp hsome, SortedMap.find?_insert_of_ne _ (hne pp hpp r hr)] at this
      exact absurd this (by simp)
  · rintro ⟨hcovers, hsafe⟩ p h prices hprices r hr
    by_cases hadd : h = height ∧ ∃ pp ∈ pps, pp.coinPricePair = p
    · obtain ⟨rfl, pp, hpp, rfl⟩ := hadd
      rcases hsafe pp hpp with hsome | hnone
      · obtain ⟨old, hold⟩ := Option.isSome_iff_exists.mp hsome
        obtain ⟨price, hprice⟩ := userPricesAt_addAll_self m h regId hnodup hpp
        obtain rfl := Option.some.inj (hprice.symm.trans hprices)
        rw [SortedMap.find?_insert_of_ne _ (hne pp hpp r hr), hold]
        exact hcovers _ _ old hold r hr
      · rw [hnone r] at hr
        exact absurd hr (by simp)
    · exact hcovers p h prices ((userPricesAt_addAll_of_not hnodup hadd).symm.trans hprices) r hr

theorem covers_singleton_addAll_iff {u : CoinPricePointMap} :
    Covers u [addAll height regId pps m] ↔
      Covers u [m] ∧ ∀ pp ∈ pps, ∀ prices ∈ userPricesAt u pp.coinPricePair height,
        (prices.find? regId).isSome := by
  unfold Covers
  simp only [existBlockUserPrice_addAll hnodup, Bool.or_eq_true, decide_eq_true_eq, or_imp, forall_and]
  rw [and_comm]
  refine and_congr_right fun _ => ⟨fun h pp hpp prices hprices => ?_, ?_⟩
  · exact h _ _ prices hprices regId ⟨rfl, rfl, List.mem_map_of_mem hpp⟩
  · rintro h p k prices hprices r ⟨rfl, rfl, hmem⟩
    obtain ⟨pp, hpp, rfl⟩ := List.mem_map.mp hmem
    exact h pp hpp prices hprices

end AddAll

/-- **Adding prices.** What is added keeps the caches covered exactly if it is safe, and it repairs
nothing. -/
theorem covered_addPrice_iff {regId : IneryRegID} {pps : List IneryPricePoint} :
    Covered (uppers ++ (addPrice bases height regId pps m).2 :: bases) ↔
      Covered (uppers ++ m :: bases) ∧ AddSafe uppers bases height regId pps m := by
  have hnew : ∀ pp ∈ accepted (fun p => existBlockUserPrice height regId p (m :: bases)) pps,
      existBlockUserPrice height regId pp.coinPricePair bases = false := by
    intro pp hpp
    have := isThere_of_mem_accepted hpp
    rw [existBlockUserPrice_cons, Bool.or_eq_false_iff] at this
    exact this.2
  rw [addPrice_eq, covered_append_cons, covered_append_cons, covers_addAll_iff nodup_accepted hnew, AddSafe]
  simp only [covers_singleton_addAll_iff nodup_accepted, forall_and]
  constructor
  · rintro ⟨hrest, ⟨hm, hbelow⟩, hu, habove⟩
    exact ⟨⟨hrest, hm, hu⟩, hbelow, fun pp hpp u hmem => habove u hmem pp hpp⟩
  · rintro ⟨⟨hrest, hm, hu⟩, hbelow, habove⟩
    exact ⟨hrest, ⟨hm, hbelow⟩, hu, fun u hmem pp hpp => habove pp hpp u hmem⟩

/-- The feeds of a block are safe, one after the other. -/
def FeedsSafe (uppers bases : List CoinPricePointMap) (height : HeightType) :
    List CBaseTx → CoinPricePointMap → Prop
  | .priceFeed txUid pricePoints :: vptx, m =>
    AddSafe uppers bases height txUid pricePoints m ∧
      FeedsSafe uppers bases height vptx (addPrice bases height txUid pricePoints m).2
  | _, _ => True

theorem covered_addPriceFeeds_iff {vptx : List CBaseTx} :
    Covered (uppers ++ addPriceFeeds bases height vptx m :: bases) ↔
      Covered (uppers ++ m :: bases) ∧ FeedsSafe uppers bases height vptx m := by
  induction vptx generalizing m with
  | nil => exact (and_iff_left trivial).symm
  | cons tx vptx ih =>
    cases tx with
    | other => exact (and_iff_left trivial).symm
    | priceFeed txUid pps => rw [addPriceFeeds, ih, covered_addPrice_iff, FeedsSafe, and_assoc]

/-- The feeds that `AddPriceByBlock` adds are safe. -/
def BlockSafe (uppers bases : List CoinPricePointMap) (block : FeedBlock) (m : CoinPricePointMap) : Prop :=
  3 ≤ block.vptx.length → FeedsSafe uppers bases block.height (block.vptx.drop 1) m

theorem covered_addPriceByBlock_iff {block : FeedBlock} :
    Covered (uppers ++ addPriceByBlock bases block m :: bases) ↔
      Covered (uppers ++ m :: bases) ∧ BlockSafe uppers bases block m := by
  rw [addPriceByBlock, BlockSafe]
  split_ifs with hlen
  · exact (and_iff_left fun h3 => absurd h3 (Nat.not_le.mpr hlen)).symm
  · rw [covered_addPriceFeeds_iff, forall_prop_of_true (Nat.le_of_not_lt hlen)]

/-- Where `DeleteBlockFromCache` marks a deletion, no cache below has a price. -/
def DeleteSafe (bases : List CoinPricePointMap) (block : FeedBlock) (m : CoinPricePointMap) : Prop :=
  ∀ p, p ∈ deletingSet (block.vptx.drop 1) ∨ (m.find? p).isSome →
    ∀ r, existBlockUserPrice block.height r p bases = false

/-- **Deleting a block** keeps the caches covered exactly if it is safe. -/
theorem covered_deleteBlockFromCache_iff {block : FeedBlock} (h : Covered (uppers ++ m :: bases)) :
    Covered (uppers ++ deleteBlockFromCache block m :: bases) ↔ DeleteSafe bases block m := by
  obtain ⟨hrest, hm, hu⟩ := covered_append_cons.mp h
  have huppers : ∀ u ∈ uppers, Covers u [deleteBlockFromCache block m] := by
    intro u hmem
    rw [covers_singleton]
    intro p k prices hprices prices' hprices' r hr
    rw [userPricesAt_deleteBlockFromCache] at hprices'
    split_ifs at hprices' with hdel
    · obtain rfl := Option.some.inj hprices'
      exact absurd hr (by simp)
    · exact covers_singleton.mp (hu u hmem) p k prices hprices prices' hprices' r hr
  rw [covered_append_cons, and_iff_right hrest, and_iff_left huppers]
  constructor
  · intro hcovers p hp r
    by_contra hr
    rw [Bool.not_eq_false] at hr
    have hmark : userPricesAt (deleteBlockFromCache block m) p block.height = some ∅ := by
      rw [userPricesAt_deleteBlockFromCache, if_pos ⟨rfl, hp⟩]
    exact absurd (hcovers p block.height ∅ hmark r hr) (by simp)
  · intro hsafe p k prices hprices r hr
    rw [userPricesAt_deleteBlockFromCache] at hprices
    split_ifs at hprices with hdel
    · obtain ⟨rfl, hp⟩ := hdel
      rw [hsafe p hp r] at hr
      exact absurd hr (by simp)
    · exact hm p k prices hprices r hr

theorem isSome_find?_batchWrite {base : CoinPricePointMap} {p : PriceCoinPair} {k : HeightType}
    {prices : UserPrices} (hprices : userPricesAt (batchWrite base m) p k = some prices) (r : IneryRegID) :
    (prices.find? r).isSome ↔ (∃ new, userPricesAt m p k = some new ∧ (new.find? r).isSome) ∨
      ∃ old, userPricesAt base p k = some old ∧ (old.find? r).isSome := by
  rw [userPricesAt_batchWrite] at hprices
  cases hp : userPricesAt m p k with
  | none =>
    rw [hp] at hprices
    simp [show userPricesAt base p k = some prices from hprices]
  | some new =>
    rw [hp, Option.elim_some, written] at hprices
    split_ifs at hprices
    obtain rfl := Option.some.inj hprices
    rw [find?_emplaceAll, Option.isSome_or, Bool.or_eq_true, or_comm]
    cases userPricesAt base p k with
    | none => simp
    | some old => simp

/-- **A flush keeps the caches covered.** Its prices cover what the parent had and what is below. -/
theorem covered_flush {base : CoinPricePointMap} (h : Covered (uppers ++ m :: base :: bases)) :
    Covered (uppers ++ ∅ :: batchWrite base m :: bases) := by
  obtain ⟨hrest, hm, hu⟩ := covered_append_cons.mp h
  obtain ⟨hrest, hbase, hubase⟩ := covered_append_cons.mp hrest
  have hempty : ∀ l, Covers ∅ l := fun l p k prices hprices => absurd hprices (by simp)
  have hself : Covers (batchWrite base m) bases := by
    intro p k prices hprices r hr
    cases hp : userPricesAt m p k with
    | none =>
      rw [Option.mem_def, userPricesAt_batchWrite, hp] at hprices
      exact hbase p k prices hprices r hr
    | some new =>
      -- the prices of the cache cover those below the parent
      refine (isSome_find?_batchWrite hprices r).mpr (.inl ⟨new, hp, hm p k new hp r ?_⟩)
      rw [existBlockUserPrice_cons, hr, Bool.or_true]
  have huppers : ∀ u ∈ uppers, Covers u [batchWrite base m] := by
    intro u hmem
    rw [covers_singleton]
    intro p k prices hprices prices' hprices' r hr
    rcases (isSome_find?_batchWrite hprices' r).mp hr with ⟨new, hnew, hr⟩ | ⟨old, hold, hr⟩
    · exact covers_singleton.mp (hu u hmem) p k prices hprices new hnew r hr
    · exact covers_singleton.mp (hubase u hmem) p k prices hprices old hold r hr
  refine covered_append_cons.mpr ⟨covered_append_cons.mpr ⟨hrest, hself, huppers⟩, hempty _, fun u hmem => ?_⟩
  rw [covers_singleton]
  exact fun p k prices hprices prices' hprices' => absurd hprices' (by simp)

end Steps

/-! ## Runs -/

/-- A step of a cache in a stack. -/
inductive MemOp
  | cache (op : PriceOp)
  | pushBlock (level : ℕ) (slideWindow : UInt64) (pTipBlockIdx : Chain)
  | undoBlock (level : ℕ) (slideWindow : UInt64) (pTipBlockIdx : Chain) (block : FeedBlock)

/-- One step; `none` if there is no such level, for the flush of a cache without a base, or if a block
is not found. -/
def memStep (caches : List CoinPricePointMap) : MemOp → Option (List CoinPricePointMap)
  | .cache op => priceStep caches op
  | .pushBlock level slideWindow pTipBlockIdx =>
    match caches.drop level with
    | m :: _ => (pushBlock slideWindow pTipBlockIdx m).map (caches.set level)
    | [] => none
  | .undoBlock level slideWindow pTipBlockIdx block =>
    match caches.drop level with
    | m :: bases => (undoBlock slideWindow bases pTipBlockIdx block m).map (caches.set level)
    | [] => none

/-- The block at the other end of the window, which leaves it or comes back. -/
def windowBlock (slideWindow : UInt64) (pTipBlockIdx : Chain) : Option FeedBlock :=
  if castHeight slideWindow < pTipBlockIdx.length - 1 then
    readBlockFromDisk (pTipBlockIdx.drop (slideSteps slideWindow))
  else none

/-- What a step needs so that the prices that exist stay those that can be read. -/
def ExistSafe (caches : List CoinPricePointMap) : MemOp → Prop
  | .cache (.addPrice level height regId pps) => ∀ m bases, caches.drop level = m :: bases →
      AddSafe (caches.take level) bases height regId pps m
  | .cache (.deleteBlock level block) => ∀ m bases, caches.drop level = m :: bases →
      DeleteSafe bases block m
  | .cache (.flush _) => True
  | .pushBlock level slideWindow pTipBlockIdx => ∀ m bases, caches.drop level = m :: bases →
      ∀ block ∈ windowBlock slideWindow pTipBlockIdx, DeleteSafe bases block m
  | .undoBlock level slideWindow pTipBlockIdx block => ∀ m bases, caches.drop level = m :: bases →
      (undoBlock slideWindow bases pTipBlockIdx block m).isSome → DeleteSafe bases block m ∧
        ∀ reLoadblock ∈ windowBlock slideWindow pTipBlockIdx,
          BlockSafe (caches.take level) bases reLoadblock (deleteBlockFromCache block m)

section Run

variable {caches : List CoinPricePointMap} {level : ℕ} {m : CoinPricePointMap}
  {bases : List CoinPricePointMap}

theorem set_of_drop (h : caches.drop level = m :: bases) (m' : CoinPricePointMap) :
    caches.set level m' = caches.take level ++ m' :: bases := by
  have hlt : level < caches.length := by
    by_contra hge
    rw [List.drop_eq_nil_of_le (Nat.le_of_not_lt hge)] at h
    exact absurd h (by simp)
  rw [List.set_eq_take_append_cons_drop, if_pos hlt, ← List.tail_drop, h, List.tail_cons]

theorem covered_of_drop (hcovered : Covered caches) (h : caches.drop level = m :: bases) :
    Covered (caches.take level ++ m :: bases) := by
  rwa [← h, List.take_append_drop]

theorem forall_map_set_iff (h : caches.drop level = m :: bases) (o : Option CoinPricePointMap) :
    (∀ caches', o.map (caches.set level) = some caches' → Covered caches') ↔
      ∀ m' ∈ o, Covered (caches.take level ++ m' :: bases) := by
  cases o with
  | none => simp
  | some m' => simp [set_of_drop h]

theorem pushBlock_iff (hcovered : Covered (caches.take level ++ m :: bases)) (w : UInt64) (chain : Chain) :
    (∀ m' ∈ pushBlock w chain m, Covered (caches.take level ++ m' :: bases)) ↔
      ∀ block ∈ windowBlock w chain, DeleteSafe bases block m := by
  rw [pushBlock, windowBlock]
  split_ifs
  · cases readBlockFromDisk (chain.drop (slideSteps w)) with
    | none => simp
    | some block => simp [covered_deleteBlockFromCache_iff hcovered]
  · simp [hcovered]

theorem undoBlock_iff (hcovered : Covered (caches.take level ++ m :: bases)) (w : UInt64) (chain : Chain)
    (block : FeedBlock) :
    (∀ m' ∈ undoBlock w bases chain block m, Covered (caches.take level ++ m' :: bases)) ↔
      ((undoBlock w bases chain block m).isSome → DeleteSafe bases block m ∧
        ∀ reLoadblock ∈ windowBlock w chain,
          BlockSafe (caches.take level) bases reLoadblock (deleteBlockFromCache block m)) := by
  rw [undoBlock, windowBlock]
  split_ifs
  · cases readBlockFromDisk (chain.drop (slideSteps w)) with
    | none => simp
    | some reLoadblock =>
      simp [covered_addPriceByBlock_iff, covered_deleteBlockFromCache_iff hcovered]
  · simp [covered_deleteBlockFromCache_iff hcovered]

theorem set_flush {base : CoinPricePointMap} (h : caches.drop level = m :: base :: bases)
    (b : CoinPricePointMap) :
    (caches.set level ∅).set (level + 1) b = caches.take level ++ ∅ :: b :: bases := by
  have hlen : (caches.take level).length = level := by
    rw [List.length_take]
    have := congrArg List.length h
    rw [List.length_drop, List.length_cons] at this
    omega
  rw [set_of_drop h, List.set_append_right _ _ (by omega), hlen, Nat.add_sub_cancel_left]
  rfl

/-- **A step keeps the caches covered exactly if it is safe.** -/
theorem covered_memStep_iff (hcovered : Covered caches) (op : MemOp) :
    (∀ caches', memStep caches op = some caches' → Covered caches') ↔ ExistSafe caches op := by
  cases op with
  | cache op =>
    cases op with
    | addPrice level height regId pps =>
      rw [memStep, priceStep, ExistSafe]
      cases hdrop : caches.drop level with
      | nil => simp
      | cons m bases =>
        have hm := covered_of_drop hcovered hdrop
        simp [set_of_drop hdrop, covered_addPrice_iff, hm]
    | deleteBlock level block =>
      rw [memStep, priceStep, ExistSafe]
      cases hdrop : caches.drop level with
      | nil => simp
      | cons m bases =>
        have hm := covered_of_drop hcovered hdrop
        simp [set_of_drop hdrop, covered_deleteBlockFromCache_iff hm]
    | flush level =>
      rw [memStep, priceStep, ExistSafe, iff_true]
      intro caches' hstep
      split at hstep
      · rename_i m base bases hdrop
        obtain rfl := Option.some.inj hstep
        rw [set_flush hdrop]
        exact covered_flush (covered_of_drop hcovered hdrop)
      · exact absurd hstep (by simp)
  | pushBlock level w chain =>
    rw [memStep, ExistSafe]
    cases hdrop : caches.drop level with
    | nil => simp
    | cons m bases =>
      rw [forall_map_set_iff hdrop, pushBlock_iff (covered_of_drop hcovered hdrop)]
      refine ⟨fun h m' bases' heq => ?_, fun h => h m bases rfl⟩
      obtain ⟨rfl, rfl⟩ := List.cons.inj heq
      exact h
  | undoBlock level w chain block =>
    rw [memStep, ExistSafe]
    cases hdrop : caches.drop level with
    | nil => simp
    | cons m bases =>
      rw [forall_map_set_iff hdrop, undoBlock_iff (covered_of_drop hcovered hdrop)]
      refine ⟨fun h m' bases' heq => ?_, fun h => h m bases rfl⟩
      obtain ⟨rfl, rfl⟩ := List.cons.inj heq
      exact h

/-- **What exists is what can be read**, in all states of a run from empty caches, exactly if the steps
of the run are safe. -/
theorem existsAsRead_run_iff (n : ℕ) (ops : List MemOp) :
    (∀ os, os <+: ops → ∀ caches, run memStep (List.replicate n ∅) os = some caches →
      ExistsAsRead caches) ↔ AllSteps memStep ExistSafe (List.replicate n ∅) ops := by
  have hstart : Covered (List.replicate n ∅) := by
    induction n with
    | zero => trivial
    | succ n ih => exact ⟨fun p h prices hprices => absurd hprices (by simp), ih⟩
  simp only [existsAsRead_iff]
  exact forall_run_iff memStep (fun caches op hcovered => covered_memStep_iff hcovered op) hstart ops

end Run

/-- **A price below a deletion exists and cannot be read.** The root holds a price of a block that the
cache above deletes; the price is then refused, and is not there. -/
theorem deleted_price_exists :
    ∃ caches ∈ run memStep (List.replicate 2 ∅)
        [.cache (.addPrice 1 5 (toLex (1, 1)) [⟨toLex ([87], [85]), 100⟩]),
          .cache (.deleteBlock 0 feedBlock)],
      existBlockUserPrice 5 (toLex (1, 1)) (toLex ([87], [85])) caches = true ∧
        priceOf caches (toLex ([87], [85])) 5 (toLex (1, 1)) = none ∧
          (addPrice (caches.drop 1) 5 (toLex (1, 1)) [⟨toLex ([87], [85]), 100⟩]
            (caches.headD ∅)).1 = false := by
  decide +kernel

end Inery
