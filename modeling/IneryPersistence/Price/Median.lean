import IneryPersistence.Price.Restart
import Mathlib.Data.List.GetD

/-!
# The median of a list of prices

* `sortedPrices`: the prices in ascending order;
* `IsMedian`: the middle price, or the mean of the two middle ones rounded down;
* `MiddleFits`: the two middle prices have a sum of 64 bits, and the middle is found with a length of 32 bits;
* **`computeMedianNumber_iff`**: `ComputeMedianNumber` is the median exactly then;
* `Vanishes`, **`computeMedianNumber_eq_zero_iff`**: when positive prices have the median 0.
-/

namespace Inery

open KV

/-- The prices in ascending order. -/
def sortedPrices (numbers : List UInt64) : List UInt64 := numbers.mergeSort fun a b => a ≤ b

/-- The price of a rank, from 0 on. -/
def priceAt (numbers : List UInt64) (i : ℕ) : ℕ := ((sortedPrices numbers).getD i 0).toNat

/-- The median of the prices, over the integers. -/
structure IsMedian (numbers : List UInt64) (m : UInt64) : Prop where
  empty : numbers = [] → m = 0
  odd : numbers.length % 2 = 1 → m.toNat = priceAt numbers (numbers.length / 2)
  even : numbers ≠ [] → numbers.length % 2 = 0 →
    m.toNat = (priceAt numbers (numbers.length / 2 - 1) + priceAt numbers (numbers.length / 2)) / 2
  between : numbers ≠ [] → ∃ low ∈ numbers, ∃ high ∈ numbers, low.toNat ≤ m.toNat ∧ m.toNat ≤ high.toNat

/-- **When the median is computed.** The sum of two middle prices fits into 64 bits. A list whose length does
not fit into 32 bits has the prices of its middle also where the length that is left of it points to. -/
def MiddleFits (numbers : List UInt64) : Prop :=
  let length := numbers.length
  let size := length % 2 ^ 32
  if length < 2 ^ 32 then
    0 < length → length % 2 = 0 → priceAt numbers (length / 2 - 1) + priceAt numbers (length / 2) < 2 ^ 64
  else if size = 0 then priceAt numbers (length / 2 - 1) = 0 ∧ priceAt numbers (length / 2) ≤ 1
  else if size = 1 then (numbers.getD 0 0).toNat = priceAt numbers (length / 2)
  else if size % 2 = 1 then priceAt numbers (size / 2) = priceAt numbers (length / 2)
  else priceAt numbers (size / 2 - 1) = priceAt numbers (length / 2 - 1) ∧
    priceAt numbers (length / 2) ≤ priceAt numbers (length / 2 - 1) + 1 ∧
      priceAt numbers (length / 2 - 1) < 2 ^ 63

/-! ## Ranks -/

theorem perm_sortedPrices (numbers : List UInt64) : (sortedPrices numbers).Perm numbers :=
  List.mergeSort_perm numbers _

theorem length_sortedPrices (numbers : List UInt64) : (sortedPrices numbers).length = numbers.length :=
  (perm_sortedPrices numbers).length_eq

theorem pairwise_sortedPrices (numbers : List UInt64) :
    (sortedPrices numbers).Pairwise fun a b => a.toNat ≤ b.toNat := by
  let le : UInt64 → UInt64 → Bool := fun a b => decide (a ≤ b)
  have htrans : ∀ a b c, le a b → le b c → le a c := fun a b c hab hbc =>
    decide_eq_true (UInt64.le_trans (of_decide_eq_true hab) (of_decide_eq_true hbc))
  have htotal : ∀ a b, le a b || le b a := fun a b => by
    simpa only [le, Bool.or_eq_true, decide_eq_true_eq] using UInt64.le_total a b
  have h : (numbers.mergeSort le).Pairwise fun a b => le a b := List.pairwise_mergeSort htrans htotal numbers
  exact h.imp fun hab => UInt64.le_iff_toNat_le.mp (of_decide_eq_true hab)

theorem priceAt_mono {numbers : List UInt64} {i j : ℕ} (hij : i ≤ j) (hj : j < numbers.length) :
    priceAt numbers i ≤ priceAt numbers j := by
  rw [← length_sortedPrices] at hj
  unfold priceAt
  rw [List.getD_eq_getElem _ _ (hij.trans_lt hj), List.getD_eq_getElem _ _ hj]
  rcases hij.eq_or_lt with rfl | hlt
  · exact le_rfl
  · exact List.pairwise_iff_getElem.mp (pairwise_sortedPrices numbers) i j _ hj hlt

theorem exists_priceAt {numbers : List UInt64} {i : ℕ} (hi : i < numbers.length) :
    ∃ x ∈ numbers, x.toNat = priceAt numbers i := by
  rw [← length_sortedPrices] at hi
  refine ⟨(sortedPrices numbers)[i], (perm_sortedPrices numbers).mem_iff.mp (List.getElem_mem hi), ?_⟩
  rw [priceAt, List.getD_eq_getElem _ _ hi]

theorem toNat_mean (a b : UInt64) : ((a + b) / 2).toNat = (a.toNat + b.toNat) % 2 ^ 64 / 2 := by
  rw [UInt64.toNat_div, UInt64.toNat_add]
  rfl

theorem between_of_ranks {numbers : List UInt64} {i j n : ℕ} (hij : i ≤ j) (hj : j < numbers.length)
    (hi : priceAt numbers i ≤ n) (hn : n ≤ priceAt numbers j) :
    ∃ low ∈ numbers, ∃ high ∈ numbers, low.toNat ≤ n ∧ n ≤ high.toNat := by
  obtain ⟨low, hlow, hlowAt⟩ := exists_priceAt (hij.trans_lt hj)
  obtain ⟨high, hhigh, hhighAt⟩ := exists_priceAt hj
  exact ⟨low, hlow, high, hhigh, hlowAt ▸ hi, hhighAt ▸ hn⟩

/-! ## The result -/

theorem toNat_computeMedianNumber (numbers : List UInt64) :
    (computeMedianNumber numbers).toNat =
      let size := numbers.length % 2 ^ 32
      if size = 0 then 0
      else if size = 1 then (numbers.getD 0 0).toNat
      else if size % 2 = 1 then priceAt numbers (size / 2)
      else (priceAt numbers (size / 2 - 1) + priceAt numbers (size / 2)) % 2 ^ 64 / 2 := by
  unfold computeMedianNumber
  dsimp only
  generalize numbers.length % 2 ^ 32 = size
  by_cases h0 : size = 0
  · rw [if_pos (by omega), if_pos h0, if_pos h0]
    rfl
  by_cases h1 : size = 1
  · rw [if_pos (by omega), if_neg h0, if_neg h0, if_pos h1]
  rw [if_neg (by omega), if_neg h0, if_neg h1]
  by_cases hodd : size % 2 = 1
  · rw [if_neg (by omega), if_pos hodd]
    rfl
  · rw [if_pos (by omega), if_neg hodd, toNat_mean]
    rfl

theorem isMedian_iff {numbers : List UInt64} {m : UInt64} :
    IsMedian numbers m ↔ (numbers.length = 0 → m.toNat = 0) ∧
      (numbers.length % 2 = 1 → m.toNat = priceAt numbers (numbers.length / 2)) ∧
        (0 < numbers.length → numbers.length % 2 = 0 →
          m.toNat = (priceAt numbers (numbers.length / 2 - 1) + priceAt numbers (numbers.length / 2)) / 2) := by
  constructor
  · intro h
    refine ⟨fun h0 => ?_, h.odd, fun hpos => h.even (List.length_pos_iff.mp hpos)⟩
    rw [h.empty (List.length_eq_zero_iff.mp h0)]
    rfl
  · rintro ⟨hempty, hodd, heven⟩
    refine ⟨fun h => ?_, hodd, fun hne => heven (List.length_pos_iff.mpr hne), fun hne => ?_⟩
    · exact UInt64.toNat_inj.mp (hempty (List.length_eq_zero_iff.mpr h))
    have hpos : 0 < numbers.length := List.length_pos_iff.mpr hne
    have hmid : numbers.length / 2 < numbers.length := by omega
    rcases Nat.mod_two_eq_zero_or_one numbers.length with h | h
    · have hmono : priceAt numbers (numbers.length / 2 - 1) ≤ priceAt numbers (numbers.length / 2) :=
        priceAt_mono (by omega) hmid
      have hm := heven hpos h
      exact between_of_ranks (Nat.sub_le _ 1) hmid (by omega) (by omega)
    · have hm := hodd h
      exact between_of_ranks le_rfl hmid hm.ge hm.le

theorem priceAt_lt (numbers : List UInt64) (i : ℕ) : priceAt numbers i < 2 ^ 64 := UInt64.toNat_lt _

theorem priceAt_single {numbers : List UInt64} (h : numbers.length = 1) :
    priceAt numbers 0 = (numbers.getD 0 0).toNat := by
  obtain ⟨x, rfl⟩ := List.length_eq_one_iff.mp h
  unfold priceAt sortedPrices
  rw [List.mergeSort_singleton]

/-- A list whose length fits into 32 bits: the sum of the middle prices decides. -/
theorem isMedian_iff_of_short {numbers : List UInt64} (h : numbers.length < 2 ^ 32) :
    IsMedian numbers (computeMedianNumber numbers) ↔ MiddleFits numbers := by
  have hm := toNat_computeMedianNumber numbers
  have hsingle := @priceAt_single numbers
  have hlow := priceAt_lt numbers (numbers.length / 2 - 1)
  have hhigh := priceAt_lt numbers (numbers.length / 2)
  dsimp only at hm
  rw [Nat.mod_eq_of_lt h] at hm
  unfold MiddleFits
  rw [isMedian_iff, if_pos h, hm]
  generalize numbers.length = n at *
  by_cases h0 : n = 0
  · simp [h0]
  by_cases h1 : n = 1
  · subst h1
    simpa using (hsingle rfl).symm
  rw [if_neg h0, if_neg h1]
  rcases Nat.mod_two_eq_zero_or_one n with hn | hn
  · rw [if_neg (by omega)]
    omega
  · rw [if_pos hn]
    omega

/-- A longer list: the prices that the rest of its length selects have to be those of its middle. -/
theorem isMedian_iff_of_long {numbers : List UInt64} (h : ¬ numbers.length < 2 ^ 32) :
    IsMedian numbers (computeMedianNumber numbers) ↔ MiddleFits numbers := by
  have hm := toNat_computeMedianNumber numbers
  have hmod : numbers.length % 2 ^ 32 < 2 ^ 32 := Nat.mod_lt _ (by decide)
  have hparity : numbers.length % 2 ^ 32 % 2 = numbers.length % 2 := Nat.mod_mod_of_dvd _ (by decide)
  have hhigh := priceAt_lt numbers (numbers.length / 2)
  have hmiddle : priceAt numbers (numbers.length / 2 - 1) ≤ priceAt numbers (numbers.length / 2) :=
    priceAt_mono (by omega) (by omega)
  have hrest : priceAt numbers (numbers.length % 2 ^ 32 / 2) ≤ priceAt numbers (numbers.length / 2 - 1) :=
    priceAt_mono (by omega) (by omega)
  have hrest' : priceAt numbers (numbers.length % 2 ^ 32 / 2 - 1) ≤ priceAt numbers (numbers.length % 2 ^ 32 / 2) :=
    priceAt_mono (by omega) (by omega)
  dsimp only at hm
  unfold MiddleFits
  rw [isMedian_iff, if_neg h, hm]
  generalize numbers.length % 2 ^ 32 = size at *
  by_cases h0 : size = 0
  · rw [if_pos h0, if_pos h0]
    omega
  by_cases h1 : size = 1
  · rw [if_neg h0, if_neg h0, if_pos h1, if_pos h1]
    omega
  rw [if_neg h0, if_neg h0, if_neg h1, if_neg h1]
  rcases Nat.mod_two_eq_zero_or_one size with hn | hn
  · rw [if_neg (by omega), if_neg (by omega)]
    omega
  · rw [if_pos hn, if_pos hn]
    omega

/-- **The median is the median** exactly if the middle of the list fits. -/
theorem computeMedianNumber_iff (numbers : List UInt64) :
    IsMedian numbers (computeMedianNumber numbers) ↔ MiddleFits numbers := by
  by_cases h : numbers.length < 2 ^ 32
  · exact isMedian_iff_of_short h
  · exact isMedian_iff_of_long h

/-- Two prices that are half of 2^64 have the sum 0 in 64 bits. -/
theorem two_high_prices :
    ¬ IsMedian [9223372036854775808, 9223372036854775808]
      (computeMedianNumber [9223372036854775808, 9223372036854775808]) := by
  rw [isMedian_iff_of_short (by decide)]
  intro hfits
  have hsorted : sortedPrices [9223372036854775808, 9223372036854775808] =
      [9223372036854775808, 9223372036854775808] := List.mergeSort_of_pairwise (by decide)
  have hsum := hfits (by decide) (by decide)
  unfold priceAt at hsum
  rw [hsorted] at hsum
  exact absurd hsum (by decide)

/-! ## No median -/

/-- Prices without a median: their number is 0 in 32 bits, or the sum of the two middle ones is 0 or 1 in 64
bits. -/
def Vanishes (numbers : List UInt64) : Prop :=
  let size := numbers.length % 2 ^ 32
  numbers ≠ [] ∧ size % 2 = 0 ∧
    (size = 0 ∨ (priceAt numbers (size / 2 - 1) + priceAt numbers (size / 2)) % 2 ^ 64 ≤ 1)

theorem priceAt_pos {numbers : List UInt64} (hpos : ∀ price ∈ numbers, 0 < price) {i : ℕ}
    (hi : i < numbers.length) : 0 < priceAt numbers i := by
  obtain ⟨price, hmem, hprice⟩ := exists_priceAt hi
  exact hprice ▸ UInt64.lt_iff_toNat_lt.mp (hpos price hmem)

/-- **The median of positive prices is 0** if there are none, or if it vanishes. -/
theorem computeMedianNumber_eq_zero_iff {numbers : List UInt64} (hpos : ∀ price ∈ numbers, 0 < price) :
    computeMedianNumber numbers = 0 ↔ numbers = [] ∨ Vanishes numbers := by
  have hm := toNat_computeMedianNumber numbers
  have hzero : computeMedianNumber numbers = 0 ↔ (computeMedianNumber numbers).toNat = 0 :=
    UInt64.toNat_inj.symm
  have hnil : numbers = [] ↔ numbers.length = 0 := List.length_eq_zero_iff.symm
  have hle : numbers.length % 2 ^ 32 ≤ numbers.length := Nat.mod_le _ _
  have hfirst : 0 < numbers.length → 0 < (numbers.getD 0 0).toNat := fun h => by
    rw [List.getD_eq_getElem _ _ h]
    exact UInt64.lt_iff_toNat_lt.mp (hpos _ (List.getElem_mem h))
  have hmid := @priceAt_pos numbers hpos (numbers.length % 2 ^ 32 / 2)
  dsimp only at hm
  unfold Vanishes
  rw [hzero, hm, ne_eq, hnil]
  generalize numbers.length % 2 ^ 32 = size at *
  by_cases h0 : size = 0
  · rw [if_pos h0]
    omega
  by_cases h1 : size = 1
  · rw [if_neg h0, if_pos h1]
    omega
  rw [if_neg h0, if_neg h1]
  rcases Nat.mod_two_eq_zero_or_one size with hn | hn
  · rw [if_neg (by omega)]
    omega
  · rw [if_pos hn]
    omega

end Inery
