import Mathlib.Algebra.BigOperators.Group.List.Basic
import Mathlib.Algebra.Order.BigOperators.Group.List
import Mathlib.Algebra.Order.Group.Nat
import IneryPersistence.Lib.Runs
import IneryPersistence.Block.Header

/-!
# The fees of a block

* `getFees`: `IneryBlock::GetFees`, which assigns the fee of a transaction where it should add it;
* `feesIn`: the fees that the transactions after the first pay in one symbol;
* `find?_run_addFees`: the loop leaves the last of them;
* **`getFees_total_iff`**: when that is their total.
-/

namespace Inery

open KV

namespace SYMB

def WICC : TokenSymbol := bytesOf "WICC"

def WUSD : TokenSymbol := bytesOf "WUSD"

end SYMB

variable {Tx : Type} (txFees : Tx → TokenSymbol × UInt64)

/-- The body of the loop of `GetFees`, where `txFees` is `GetFees` of a transaction; `none` when the
assertion on its symbol stops the program. -/
def addFees (fees : SortedMap TokenSymbol UInt64) (ptx : Tx) : Option (SortedMap TokenSymbol UInt64) :=
  let fees_symbol := (txFees ptx).1
  if fees_symbol = SYMB.WICC ∨ fees_symbol = SYMB.WUSD then some (fees.insert fees_symbol (txFees ptx).2)
  else none

/-- `IneryBlock::GetFees`. -/
def IneryBlock.getFees (block : IneryBlock Tx) : Option (SortedMap TokenSymbol UInt64) :=
  run (addFees txFees) (((∅ : SortedMap _ _).insert SYMB.WICC 0).insert SYMB.WUSD 0) (block.vptx.drop 1)

/-- The fees that `vptx` pays in a symbol, in the order of its transactions. -/
def feesIn (s : TokenSymbol) (vptx : List Tx) : List UInt64 :=
  ((vptx.map txFees).filter fun fees => fees.1 = s).map Prod.snd

/-- The transactions pay in the two symbols that the assertion admits. -/
def PaysFees (vptx : List Tx) : Prop :=
  ∀ ptx ∈ vptx, (txFees ptx).1 = SYMB.WICC ∨ (txFees ptx).1 = SYMB.WUSD

variable {txFees}

theorem feesIn_cons_self (ptx : Tx) (vptx : List Tx) :
    feesIn txFees (txFees ptx).1 (ptx :: vptx) = (txFees ptx).2 :: feesIn txFees (txFees ptx).1 vptx := by
  simp [feesIn]

theorem feesIn_cons_of_ne {s : TokenSymbol} {ptx : Tx} (h : s ≠ (txFees ptx).1) (vptx : List Tx) :
    feesIn txFees s (ptx :: vptx) = feesIn txFees s vptx := by
  simp [feesIn, h.symm]

/-- **The loop leaves the last fee of each symbol.** -/
theorem find?_run_addFees {vptx : List Tx} (hpays : PaysFees txFees vptx)
    (fees : SortedMap TokenSymbol UInt64) :
    ∃ fees', run (addFees txFees) fees vptx = some fees' ∧
      ∀ s, fees'.find? s = (feesIn txFees s vptx).getLast?.or (fees.find? s) := by
  induction vptx generalizing fees with
  | nil => exact ⟨fees, rfl, fun _ => rfl⟩
  | cons ptx vptx ih =>
    obtain ⟨fees', hrun, hfind⟩ := ih (fun t ht => hpays t (List.mem_cons_of_mem _ ht))
      (fees.insert (txFees ptx).1 (txFees ptx).2)
    have hstep : addFees txFees fees ptx = some (fees.insert (txFees ptx).1 (txFees ptx).2) :=
      if_pos (hpays ptx List.mem_cons_self)
    refine ⟨fees', by rw [run_cons, hstep]; exact hrun, fun s => ?_⟩
    rw [hfind s]
    by_cases hs : s = (txFees ptx).1
    · subst hs
      rw [feesIn_cons_self, List.getLast?_cons, SortedMap.find?_insert_self]
      cases (feesIn txFees (txFees ptx).1 vptx).getLast? <;> rfl
    · rw [feesIn_cons_of_ne hs, SortedMap.find?_insert_of_ne _ hs]

theorem last_eq_sum_iff (l : List UInt64) :
    (l.getLast?.getD 0).toNat = (l.map UInt64.toNat).sum ↔ ∀ fee ∈ l.dropLast, fee = 0 := by
  rcases List.eq_nil_or_concat l with rfl | ⟨l, fee, rfl⟩
  · simp
  · rw [List.concat_eq_append, List.getLast?_concat, List.dropLast_concat, List.map_append, List.sum_append]
    have hzero : (l.map UInt64.toNat).sum = 0 ↔ ∀ fee ∈ l, fee = 0 := by
      simp [List.sum_eq_zero_iff, ← UInt64.toNat_inj]
    rw [← hzero]
    simp

/-- **When `GetFees` is the total of the fees of a block**: the fees paid in the symbol, but for the last
one, are zero. -/
theorem getFees_total_iff (block : IneryBlock Tx) (hpays : PaysFees txFees (block.vptx.drop 1))
    {s : TokenSymbol} (hs : s = SYMB.WICC ∨ s = SYMB.WUSD) :
    ∃ fees total, block.getFees txFees = some fees ∧ fees.find? s = some total ∧
      (total.toNat = ((feesIn txFees s (block.vptx.drop 1)).map UInt64.toNat).sum ↔
        ∀ fee ∈ (feesIn txFees s (block.vptx.drop 1)).dropLast, fee = 0) := by
  obtain ⟨fees, hrun, hfind⟩ := find?_run_addFees hpays
    (((∅ : SortedMap TokenSymbol UInt64).insert SYMB.WICC 0).insert SYMB.WUSD 0)
  have hzero : ((((∅ : SortedMap TokenSymbol UInt64).insert SYMB.WICC 0).insert SYMB.WUSD 0)).find? s =
      some 0 := by
    rcases hs with rfl | rfl <;> decide
  refine ⟨fees, _, hrun, ?_, last_eq_sum_iff _⟩
  rw [hfind, hzero]
  cases (feesIn txFees s (block.vptx.drop 1)).getLast? <;> rfl

/-- A block after whose first transaction two transactions pay 3 and 5 of one coin, and one pays 7 of
the other. -/
def twoFeesBlock : IneryBlock (TokenSymbol × UInt64) :=
  ⟨⟨0, 0, 0, 0, 0, 0, 0, 0, []⟩, [(SYMB.WICC, 0), (SYMB.WICC, 3), (SYMB.WUSD, 7), (SYMB.WICC, 5)]⟩

theorem getFees_total_iff_twoFees : ∃ fees total, twoFeesBlock.getFees id = some fees ∧
    fees.find? SYMB.WICC = some total ∧
      (total.toNat = ((feesIn id SYMB.WICC (twoFeesBlock.vptx.drop 1)).map UInt64.toNat).sum ↔
        ∀ fee ∈ (feesIn id SYMB.WICC (twoFeesBlock.vptx.drop 1)).dropLast, fee = 0) :=
  getFees_total_iff twoFeesBlock (by unfold PaysFees; decide) (.inl rfl)

/-- The fee of 3 is lost. -/
theorem twoFees_not_total : PaysFees id (twoFeesBlock.vptx.drop 1) ∧
    (twoFeesBlock.getFees id).bind (fun fees => fees.find? SYMB.WICC) = some 5 ∧
    ((feesIn id SYMB.WICC (twoFeesBlock.vptx.drop 1)).map UInt64.toNat).sum = 8 := by
  unfold PaysFees
  decide

end Inery
