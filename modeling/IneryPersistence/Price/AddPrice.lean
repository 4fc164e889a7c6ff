import IneryPersistence.Price.Flush
import IneryPersistence.Price.Window

/-!
# Adding the prices of one user

* `accepted`, `addAll`: the points that `AddPrice` accepts, and what it does with them;
* `priceOf`: the price that `GetBlockUserPrices` gives for a user;
* **`allOrNothing_iff`**: `AddPrice` adds all prices of a list or none exactly if the first of them exists,
  or all are new, of different coin pairs, and hide no others.
-/

namespace Inery

open KV

/-- The points before the first one whose price exists, or whose coin pair occurred before. -/
def accepted (isThere : PriceCoinPair → Bool) : List IneryPricePoint → List IneryPricePoint
  | [] => []
  | pp :: pps =>
    if isThere pp.coinPricePair then []
    else pp :: accepted (fun p => decide (p = pp.coinPricePair) || isThere p) pps

/-- Points are added at a height, whether they exist or not. -/
def addAll (blockHeight : HeightType) (regId : IneryRegID) (pps : List IneryPricePoint)
    (m : CoinPricePointMap) : CoinPricePointMap :=
  pps.foldl (fun m pp => modify m pp.coinPricePair fun cbp => cbp.addUserPrice blockHeight regId pp.price) m

section Accepted

variable {isThere : PriceCoinPair → Bool} {pps : List IneryPricePoint}

theorem isThere_of_mem_accepted {pp : IneryPricePoint} (h : pp ∈ accepted isThere pps) :
    isThere pp.coinPricePair = false := by
  induction pps generalizing isThere with
  | nil => exact absurd h List.not_mem_nil
  | cons pp' pps ih =>
    rw [accepted] at h
    split_ifs at h with hthere
    · exact absurd h List.not_mem_nil
    · rcases List.mem_cons.mp h with rfl | h
      · simpa using hthere
      · exact (Bool.or_eq_false_iff.mp (ih h)).2

theorem nodup_accepted : ((accepted isThere pps).map IneryPricePoint.coinPricePair).Nodup := by
  induction pps generalizing isThere with
  | nil => exact List.nodup_nil
  | cons pp pps ih =>
    rw [accepted]
    split_ifs
    · exact List.nodup_nil
    · rw [List.map_cons, List.nodup_cons]
      refine ⟨fun hmem => ?_, ih⟩
      obtain ⟨pp', hpp', heq⟩ := List.mem_map.mp hmem
      have := isThere_of_mem_accepted hpp'
      simp [heq] at this

theorem accepted_eq_self_iff : accepted isThere pps = pps ↔
    (∀ pp ∈ pps, isThere pp.coinPricePair = false) ∧ (pps.map IneryPricePoint.coinPricePair).Nodup := by
  constructor
  · intro h
    constructor
    · intro pp hpp
      rw [← h] at hpp
      exact isThere_of_mem_accepted hpp
    · rw [← h]
      exact nodup_accepted
  · rintro ⟨hthere, hnodup⟩
    induction pps generalizing isThere with
    | nil => rfl
    | cons pp pps ih =>
      rw [List.map_cons, List.nodup_cons] at hnodup
      have hfirst := hthere pp List.mem_cons_self
      rw [accepted, if_neg (by simp [hfirst]), ih (fun pp' hpp' => ?_) hnodup.2]
      have hne : pp'.coinPricePair ≠ pp.coinPricePair := fun heq =>
        hnodup.1 (heq ▸ List.mem_map_of_mem hpp')
      simp [hne, hthere pp' (List.mem_cons_of_mem _ hpp')]

theorem isPrefix_accepted : accepted isThere pps <+: pps := by
  induction pps generalizing isThere with
  | nil => exact List.prefix_rfl
  | cons pp pps ih =>
    rw [accepted]
    split_ifs
    · exact List.nil_prefix
    · exact (List.prefix_cons_inj pp).mpr ih

theorem accepted_eq_nil_iff : accepted isThere pps = [] ↔ ∀ pp ∈ pps.head?, isThere pp.coinPricePair := by
  cases pps with
  | nil => simp [accepted]
  | cons pp pps =>
    rw [accepted]
    split_ifs with h
    · simp [h]
    · simp [h]

end Accepted

/-! ## What is added -/

theorem existBlockUserPrice_addUserPrice (bases : List CoinPricePointMap) (m : CoinPricePointMap)
    (q : PriceCoinPair) (height : HeightType) (regId : IneryRegID) (price : UInt64) (p : PriceCoinPair) :
    existBlockUserPrice height regId p
        ((modify m q fun cbp => cbp.addUserPrice height regId price) :: bases) =
      (decide (p = q) || existBlockUserPrice height regId p (m :: bases)) := by
  rw [existBlockUserPrice_cons, existBlockUserPrice_cons, userPricesAt_addUserPrice]
  by_cases hp : p = q
  · simp [hp, SortedMap.find?_insert_self]
  · simp [hp]

/-- **`AddPrice` adds the points that it accepts**, and tells whether these are all. -/
theorem addPrice_eq (bases : List CoinPricePointMap) (height : HeightType) (regId : IneryRegID)
    (pps : List IneryPricePoint) (m : CoinPricePointMap) :
    addPrice bases height regId pps m =
      (decide ((accepted (fun p => existBlockUserPrice height regId p (m :: bases)) pps).length = pps.length),
        addAll height regId (accepted (fun p => existBlockUserPrice height regId p (m :: bases)) pps) m) := by
  induction pps generalizing m with
  | nil => rfl
  | cons pp pps ih =>
    rw [addPrice, accepted]
    split_ifs with h
    · rfl
    · rw [ih]
      simp only [existBlockUserPrice_addUserPrice, List.length_cons, Nat.add_right_cancel_iff]
      rfl

/-- The price that a list has for a coin pair. -/
def listedPrice (pps : List IneryPricePoint) (p : PriceCoinPair) : Option UInt64 :=
  (pps.find? fun pp => pp.coinPricePair = p).map IneryPricePoint.price

theorem listedPrice_eq_none_iff {pps : List IneryPricePoint} {p : PriceCoinPair} :
    listedPrice pps p = none ↔ p ∉ pps.map IneryPricePoint.coinPricePair := by
  rw [listedPrice, Option.map_eq_none_iff, List.find?_eq_none, List.mem_map, not_exists]
  simp

theorem userPricesAt_addAll (height : HeightType) (regId : IneryRegID) {pps : List IneryPricePoint}
    (hnodup : (pps.map IneryPricePoint.coinPricePair).Nodup) (m : CoinPricePointMap) (p : PriceCoinPair)
    (h : HeightType) :
    userPricesAt (addAll height regId pps m) p h =
      if h = height then (listedPrice pps p).elim (userPricesAt m p h) fun price =>
        some (((userPricesAt m p h).getD ∅).insert regId price)
      else userPricesAt m p h := by
  induction pps generalizing m with
  | nil => simp [addAll, listedPrice]
  | cons pp pps ih =>
    rw [List.map_cons, List.nodup_cons] at hnodup
    change userPricesAt (addAll height regId pps _) p h = _
    rw [ih hnodup.2, userPricesAt_addUserPrice]
    by_cases hh : h = height
    · by_cases hp : p = pp.coinPricePair
      · have hnone : listedPrice pps p = none := listedPrice_eq_none_iff.mpr (hp ▸ hnodup.1)
        have hself : listedPrice (pp :: pps) p = some pp.price := by simp [listedPrice, hp]
        rw [hnone, hself, if_pos hh, if_pos hh, if_pos ⟨hh, hp⟩]
        rfl
      · have hother : listedPrice (pp :: pps) p = listedPrice pps p := by
          rw [listedPrice, List.find?_cons_of_neg]
          · rfl
          · simpa using fun he => hp he.symm
        rw [hother, if_pos hh, if_pos hh, if_neg fun hn => hp hn.2]
    · rw [if_neg hh, if_neg hh, if_neg fun hn => hh hn.1]

/-! ## All or nothing -/

/-- The price of a user in the map that `GetBlockUserPrices` fills. -/
def priceOf (caches : List CoinPricePointMap) (p : PriceCoinPair) (h : HeightType) (regId : IneryRegID) :
    Option UInt64 :=
  ((getBlockUserPrices caches p).find? h).bind fun prices => prices.find? regId

/-- Empty prices hold no price, and so a deletion needs no case of its own. -/
theorem priceOf_eq (caches : List CoinPricePointMap) (p : PriceCoinPair) (h : HeightType)
    (regId : IneryRegID) :
    priceOf caches p h regId = (topPrices p h caches).bind fun prices => prices.find? regId := by
  rw [priceOf, find?_getBlockUserPrices]
  cases topPrices p h caches with
  | none => rfl
  | some prices =>
    cases he : isEmpty prices with
    | false => rw [live_of_not_isEmpty he]
    | true =>
      have hnil : prices = ∅ := SortedMap.eq_empty_of_entries ((isEmpty_iff_entries prices).mp he)
      rw [live_of_isEmpty he, hnil]
      rfl

theorem priceOf_cons (m : CoinPricePointMap) (bases : List CoinPricePointMap) (p : PriceCoinPair)
    (h : HeightType) (regId : IneryRegID) :
    priceOf (m :: bases) p h regId =
      (userPricesAt m p h).elim (priceOf bases p h regId) fun prices => prices.find? regId := by
  rw [priceOf_eq, priceOf_eq, topPrices]
  cases userPricesAt m p h <;> rfl

theorem priceOf_eq_none {caches : List CoinPricePointMap} {p : PriceCoinPair} {h : HeightType}
    {regId : IneryRegID} (hexist : existBlockUserPrice h regId p caches = false) :
    priceOf caches p h regId = none := by
  induction caches with
  | nil => rfl
  | cons m bases ih =>
    rw [existBlockUserPrice_cons, Bool.or_eq_false_iff] at hexist
    rw [priceOf_cons]
    cases hm : userPricesAt m p h with
    | none => exact ih hexist.2
    | some prices => simpa [hm] using hexist.1

section AllOrNothing

variable (bases : List CoinPricePointMap) (height : HeightType) (regId : IneryRegID)
  (pps : List IneryPricePoint) (m : CoinPricePointMap)

/-- A refused list changes no answer, and of an accepted one the prices are added and nothing else. -/
def AllOrNothing : Prop :=
  ((addPrice bases height regId pps m).1 = false → ∀ p,
    (∀ h r, existBlockUserPrice h r p ((addPrice bases height regId pps m).2 :: bases) =
      existBlockUserPrice h r p (m :: bases)) ∧
    getBlockUserPrices ((addPrice bases height regId pps m).2 :: bases) p =
      getBlockUserPrices (m :: bases) p) ∧
  ((addPrice bases height regId pps m).1 = true → ∀ p h r,
    existBlockUserPrice h r p ((addPrice bases height regId pps m).2 :: bases) =
      (decide (h = height ∧ r = regId ∧ p ∈ pps.map IneryPricePoint.coinPricePair) ||
        existBlockUserPrice h r p (m :: bases)) ∧
    priceOf ((addPrice bases height regId pps m).2 :: bases) p h r =
      if h = height ∧ r = regId then (listedPrice pps p).or (priceOf (m :: bases) p h r)
      else priceOf (m :: bases) p h r)

/-- No price of the list exists, no two points have one coin pair, and where the cache does not know the
height of a coin pair yet, no price that could be read below is hidden. -/
structure Addable : Prop where
  isNew : ∀ pp ∈ pps, existBlockUserPrice height regId pp.coinPricePair (m :: bases) = false
  nodup : (pps.map IneryPricePoint.coinPricePair).Nodup
  hides : ∀ pp ∈ pps, (userPricesAt m pp.coinPricePair height).isSome ∨
    ∀ r, priceOf bases pp.coinPricePair height r = none

variable {bases height regId pps m}

theorem addPrice_of_accepted_eq
    (h : accepted (fun p => existBlockUserPrice height regId p (m :: bases)) pps = pps) :
    addPrice bases height regId pps m = (true, addAll height regId pps m) := by
  rw [addPrice_eq, h]
  simp

theorem existBlockUserPrice_addAll (hnodup : (pps.map IneryPricePoint.coinPricePair).Nodup)
    (p : PriceCoinPair) (h : HeightType) (r : IneryRegID) :
    existBlockUserPrice h r p (addAll height regId pps m :: bases) =
      (decide (h = height ∧ r = regId ∧ p ∈ pps.map IneryPricePoint.coinPricePair) ||
        existBlockUserPrice h r p (m :: bases)) := by
  rw [existBlockUserPrice_cons, existBlockUserPrice_cons, userPricesAt_addAll height regId hnodup]
  by_cases hh : h = height
  · cases hl : listedPrice pps p with
    | none => simp [listedPrice_eq_none_iff.mp hl]
    | some price =>
      have hmem : p ∈ pps.map IneryPricePoint.coinPricePair := by
        by_contra hn
        rw [listedPrice_eq_none_iff.mpr hn] at hl
        exact absurd hl (by simp)
      by_cases hr : r = regId
      · simp [hh, hr, hmem, SortedMap.find?_insert_self]
      · cases userPricesAt m p h <;> simp [hh, hr, SortedMap.find?_insert_of_ne _ hr]
  · simp [hh]

theorem priceOf_addAll (h : Addable bases height regId pps m) (p : PriceCoinPair) (k : HeightType)
    (r : IneryRegID) :
    priceOf (addAll height regId pps m :: bases) p k r =
      if k = height ∧ r = regId then (listedPrice pps p).or (priceOf (m :: bases) p k r)
      else priceOf (m :: bases) p k r := by
  rw [priceOf_cons, priceOf_cons, userPricesAt_addAll height regId h.nodup]
  by_cases hk : k = height
  · subst hk
    cases hl : listedPrice pps p with
    | none => simp
    | some price =>
      obtain ⟨pp, hpp, rfl⟩ : ∃ pp ∈ pps, pp.coinPricePair = p := by
        by_contra hn
        have hnone : listedPrice pps p = none := listedPrice_eq_none_iff.mpr (by simpa using hn)
        rw [hnone] at hl
        exact absurd hl (by simp)
      rcases h.hides pp hpp with hsome | hnone
      · obtain ⟨prices, hprices⟩ := Option.isSome_iff_exists.mp hsome
        by_cases hr : r = regId
        · simp [hprices, hr, SortedMap.find?_insert_self]
        · simp [hprices, hr, SortedMap.find?_insert_of_ne _ hr]
      · by_cases hr : r = regId
        · simp [hr, SortedMap.find?_insert_self]
        · cases userPricesAt m pp.coinPricePair k <;> simp [hnone, hr, SortedMap.find?_insert_of_ne _ hr]
  · simp [hk]

theorem addPrice_of_first
    (h : ∃ pp ∈ pps.head?, existBlockUserPrice height regId pp.coinPricePair (m :: bases)) :
    addPrice bases height regId pps m = (false, m) := by
  obtain ⟨pp, hpp, hexist⟩ := h
  have hnil : accepted (fun p => existBlockUserPrice height regId p (m :: bases)) pps = [] :=
    accepted_eq_nil_iff.mpr fun pp' hpp' => by rwa [Option.mem_unique hpp' hpp]
  have hne : pps.length ≠ 0 := fun h0 => by
    rw [List.length_eq_zero_iff.mp h0] at hpp
    exact absurd hpp (by simp)
  rw [addPrice_eq, hnil]
  simp [addAll, Ne.symm hne]

theorem accepted_eq_nil_of_unchanged
    (h : ∀ p, existBlockUserPrice height regId p ((addPrice bases height regId pps m).2 :: bases) =
      existBlockUserPrice height regId p (m :: bases)) :
    accepted (fun p => existBlockUserPrice height regId p (m :: bases)) pps = [] := by
  by_contra hne
  obtain ⟨pp, hpp⟩ := List.exists_mem_of_ne_nil _ hne
  have hsame := h pp.coinPricePair
  rw [addPrice_eq, existBlockUserPrice_addAll nodup_accepted, isThere_of_mem_accepted hpp] at hsame
  simp [List.mem_map_of_mem (f := IneryPricePoint.coinPricePair) hpp] at hsame

/-- A new price at a height that the cache does not know hides the prices of the other users below. -/
theorem priceOf_eq_none_of_unchanged (hnodup : (pps.map IneryPricePoint.coinPricePair).Nodup)
    {pp : IneryPricePoint} (hpp : pp ∈ pps) (hnone : userPricesAt m pp.coinPricePair height = none)
    {r : IneryRegID} (hr : r ≠ regId)
    (h : priceOf (addAll height regId pps m :: bases) pp.coinPricePair height r =
      priceOf (m :: bases) pp.coinPricePair height r) : priceOf bases pp.coinPricePair height r = none := by
  rw [priceOf_cons m, hnone, Option.elim_none, priceOf_cons, userPricesAt_addAll height regId hnodup, if_pos rfl,
    hnone] at h
  rw [← h]
  cases hl : listedPrice pps pp.coinPricePair with
  | none => exact absurd (List.mem_map_of_mem hpp) (listedPrice_eq_none_iff.mp hl)
  | some price => exact SortedMap.find?_insert_of_ne _ hr _

/-- **When `AddPrice` is all or nothing.** Exactly if the first price of the list exists, or the list can
be added as a whole. -/
theorem allOrNothing_iff :
    AllOrNothing bases height regId pps m ↔
      (∃ pp ∈ pps.head?, existBlockUserPrice height regId pp.coinPricePair (m :: bases)) ∨
        Addable bases height regId pps m := by
  constructor
  · rintro ⟨hfalse, htrue⟩
    by_cases hacc : accepted (fun p => existBlockUserPrice height regId p (m :: bases)) pps = pps
    · rw [addPrice_of_accepted_eq hacc] at htrue
      obtain ⟨hnew, hnodup⟩ := accepted_eq_self_iff.mp hacc
      refine .inr ⟨hnew, hnodup, fun pp hpp => or_iff_not_imp_left.mpr fun hsome r => ?_⟩
      have hnone : userPricesAt m pp.coinPricePair height = none := Option.not_isSome_iff_eq_none.mp hsome
      by_cases hr : r = regId
      · have hread := priceOf_eq_none (hnew pp hpp)
        rwa [priceOf_cons, hnone, Option.elim_none, ← hr] at hread
      · have hread := (htrue rfl pp.coinPricePair height r).2
        rw [if_neg fun hn => hr hn.2] at hread
        exact priceOf_eq_none_of_unchanged hnodup hpp hnone hr hread
    · left
      have hlen : (addPrice bases height regId pps m).1 = false := by
        rw [addPrice_eq, decide_eq_false_iff_not]
        exact fun hlen => hacc (isPrefix_accepted.eq_of_length hlen)
      have hnil := accepted_eq_nil_of_unchanged fun p => (hfalse hlen p).1 height regId
      cases pps with
      | nil => exact absurd rfl hacc
      | cons pp pps => exact ⟨pp, rfl, accepted_eq_nil_iff.mp hnil pp rfl⟩
  · rintro (hfirst | h)
    · rw [AllOrNothing, addPrice_of_first hfirst]
      exact ⟨fun _ p => ⟨fun h r => rfl, rfl⟩, fun h => absurd h (by simp)⟩
    · have hacc : accepted (fun p => existBlockUserPrice height regId p (m :: bases)) pps = pps :=
        accepted_eq_self_iff.mpr ⟨h.isNew, h.nodup⟩
      rw [AllOrNothing, addPrice_of_accepted_eq hacc]
      exact ⟨fun h => absurd h (by simp), fun _ p k r =>
        ⟨existBlockUserPrice_addAll h.nodup p k r, priceOf_addAll h p k r⟩⟩

end AllOrNothing

/-- **A list that is refused midway leaves prices behind.** A user who fed the price of one coin pair
feeds two, of which the second one exists. -/
theorem addPrice_refused_midway :
    ∃ caches ∈ run priceStep [∅] [.addPrice 0 5 (toLex (1, 1)) [⟨toLex ([87], [85]), 100⟩]],
      ∃ m ∈ caches.head?,
        (addPrice [] 5 (toLex (1, 1)) [⟨toLex ([66], [85]), 7⟩, ⟨toLex ([87], [85]), 101⟩] m).1 = false ∧
          existBlockUserPrice 5 (toLex (1, 1)) (toLex ([66], [85])) [m] = false ∧
            existBlockUserPrice 5 (toLex (1, 1)) (toLex ([66], [85]))
              [(addPrice [] 5 (toLex (1, 1)) [⟨toLex ([66], [85]), 7⟩, ⟨toLex ([87], [85]), 101⟩] m).2] =
                true := by
  decide +kernel

end Inery
