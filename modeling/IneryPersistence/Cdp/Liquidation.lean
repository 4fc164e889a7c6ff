import IneryPersistence.Cdp.Keys
import IneryPersistence.Iterator.Block
import Mathlib.Data.List.Perm.Subperm

/-!
# The liquidation list

`GetCdpListByCollateralRatio` walks the ratio index of a coin pair. A cache orders the coin pairs as
strings, the database behind the lengths of the symbols, so that the walk may leave the pair early.

* `getCdpListByCollateralRatio`, `IsCdpList`: the list, and what it should be;
* `AllReached`: no entry of the list is cut off;
* **`getCdpListByCollateralRatio_iff`**: two stacks with one view give the same, right list exactly
  when nothing is cut off in either of them.
-/

namespace Inery

open KV

section Model

variable {IneryUserCDP : Type}

/-- The loop of `GetCdpListByCollateralRatio`. -/
def pushCdps (dbIt : CDBBaseIterator CdpRatioIndexKey IneryUserCDP) (ratioBoost : UInt64) :
    ℕ → dbIt.State → Option (List IneryUserCDP)
  | 0, _ => none
  | fuel + 1, st =>
    match dbIt.cur st with
    | none => some []
    | some (key, value) =>
      if (get1 key).value > ratioBoost then some []
      else (dbIt.next st).bind fun st => (pushCdps dbIt ratioBoost fuel st).map (value :: ·)

variable [CompactSize] [Serial CFixedUInt64] [Serial Uint256] [DbUtil IneryCdpCoinPair]
  [DbUtil CFixedUInt64] [DbUtil Uint256] [Serial IneryUserCDP] [DbUtil IneryUserCDP]

/-- `GetCdpListByCollateralRatio`, from the boosted ratio on. -/
def getCdpListByCollateralRatio (acc : CDBAccess) (cdpRatioIndexCache : CacheStack CdpRatioIndexKey IneryUserCDP)
    (cdpCoinPair : IneryCdpCoinPair) (ratioBoost : UInt64) : Option (List IneryUserCDP) :=
  let dbIt := prefixIterator (commonPrefixMatcher _ _) cdpCoinPair
    (CacheStack.create acc .cdpRatioIndex cdpRatioIndexCache)
  (dbIt.first dbIt.init).bind fun st => pushCdps dbIt ratioBoost (dbIt.remaining st + 1) st

end Model

/-- The live CDPs of a coin pair with an index ratio of at most `ratioBoost`, in the order of ratio,
height and id. -/
def IsCdpList {IneryUserCDP : Type} (view : CdpRatioIndexKey → Option IneryUserCDP)
    (cdpCoinPair : IneryCdpCoinPair) (ratioBoost : UInt64) (cdpList : List IneryUserCDP) : Prop :=
  ∃ entries : List (CdpRatioIndexKey × IneryUserCDP), Ascending entries ∧
    (∀ key cdp, (key, cdp) ∈ entries ↔
      view key = some cdp ∧ get0 key = cdpCoinPair ∧ (get1 key).value ≤ ratioBoost) ∧
    cdpList = entries.map Prod.snd

theorem pushCdps_of_enumerates {IneryUserCDP : Type}
    {dbIt : CDBBaseIterator CdpRatioIndexKey IneryUserCDP} (ratioBoost : UInt64) {st : dbIt.State}
    {l : List (CdpRatioIndexKey × IneryUserCDP)} (h : dbIt.Enumerates st l) {n : ℕ}
    (hn : l.length < n) : pushCdps dbIt ratioBoost n st =
      some ((l.takeWhile fun e => (get1 e.1).value ≤ ratioBoost).map Prod.snd) := by
  induction l generalizing st n with
  | nil =>
    obtain ⟨n, rfl⟩ := Nat.exists_eq_add_of_lt hn
    rw [pushCdps, h.cur]
    rfl
  | cons e l ih =>
    obtain ⟨hcur, -, st', hnext, h'⟩ := h
    simp only [List.length_cons] at hn
    obtain ⟨n, rfl⟩ : ∃ m, n = m + 1 := ⟨n - 1, by omega⟩
    rw [pushCdps, hcur]
    by_cases hle : (get1 e.1).value ≤ ratioBoost
    · simp [hnext, ih h' (show l.length < n by omega), hle, UInt64.not_lt.mpr hle]
    · simp [hle, UInt64.not_le.mp hle]

section Spec

variable {IneryUserCDP : Type} [CompactSize] [LawfulCompactSize]
  [DbUtil IneryCdpCoinPair] [LeastEmpty IneryCdpCoinPair]
  [Serial CFixedUInt64] [StreamSerial CFixedUInt64] [DbUtil CFixedUInt64] [LeastEmpty CFixedUInt64]
  [Serial Uint256] [StreamSerial Uint256] [DbUtil Uint256] [LeastEmpty Uint256]
  [Serial IneryUserCDP] [LawfulSerial IneryUserCDP] [DbUtil IneryUserCDP]
  {acc : CDBAccess}

omit [CompactSize] [LawfulCompactSize] [DbUtil IneryCdpCoinPair] [LeastEmpty IneryCdpCoinPair]
  [DbUtil CFixedUInt64] [LeastEmpty CFixedUInt64] [StreamSerial Uint256] [DbUtil Uint256]
  [LeastEmpty Uint256] [Serial IneryUserCDP] [LawfulSerial IneryUserCDP] [DbUtil IneryUserCDP] in
theorem sameOrder_ratioTail (hfixed : SameOrder CFixedUInt64) (huint : SameOrder Uint256) :
    SameOrder (CFixedUInt64 ×ₗ CFixedUInt64 ×ₗ Uint256) :=
  sameOrder_prod hfixed (sameOrder_prod hfixed huint)

variable (hfixed : SameOrder CFixedUInt64) (huint : SameOrder Uint256)
include hfixed huint

/-- **The list is the block of the pair**, up to the threshold. -/
theorem getCdpListByCollateralRatio_eq (hdb : WellStored CdpRatioIndexKey IneryUserCDP acc .cdpRatioIndex)
    (s : CacheStack CdpRatioIndexKey IneryUserCDP) (cdpCoinPair : IneryCdpCoinPair) (ratioBoost : UInt64) :
    getCdpListByCollateralRatio acc s cdpCoinPair ratioBoost =
      some (((block acc .cdpRatioIndex cdpCoinPair s).takeWhile fun e =>
        (get1 e.1).value ≤ ratioBoost).map Prod.snd) := by
  obtain ⟨st, hfirst, hwalk⟩ := prefixIterator_block (by decide) hdb cdpCoinPair (fun he key => by
    have hpair := LeastEmpty.le_of_isEmpty cdpCoinPair he
    refine ser_toLex_le (IneryCdpCoinPair.ser_le_of_least hpair _) (not_lt.mp fun hlt => ?_)
    have hleast := LeastEmpty.makeEmptyValue_le (ofLex key).2
    exact hleast.not_gt ((sameOrder_ratioTail hfixed huint _ _).mpr hlt)) s
    (CacheStack.create acc .cdpRatioIndex s).init
  have hpush := pushCdps_of_enumerates ratioBoost hwalk (Nat.lt_succ_of_le hwalk.length_le)
  simp only [getCdpListByCollateralRatio]
  rw [show (prefixIterator (commonPrefixMatcher _ _) cdpCoinPair (CacheStack.create acc
    .cdpRatioIndex s)).init = (CacheStack.create acc .cdpRatioIndex s).init from rfl, hfirst]
  exact hpush

omit [DbUtil IneryCdpCoinPair] [LeastEmpty IneryCdpCoinPair] in
theorem mem_takeWhile_block (hdb : StoredLive CdpRatioIndexKey IneryUserCDP acc .cdpRatioIndex)
    (s : CacheStack CdpRatioIndexKey IneryUserCDP) (cdpCoinPair : IneryCdpCoinPair) (ratioBoost : UInt64) :
    let l := (block acc .cdpRatioIndex cdpCoinPair s).takeWhile fun e => (get1 e.1).value ≤ ratioBoost
    Ascending l ∧ ∀ key cdp, (key, cdp) ∈ l ↔ (CacheStack.view acc .cdpRatioIndex s key = some cdp ∧
      get0 key = cdpCoinPair ∧ (get1 key).value ≤ ratioBoost) ∧
        Reached acc .cdpRatioIndex cdpCoinPair s key := by
  intro l
  have hw := walks (by decide) (sameOrder_ratioTail hfixed huint) hdb LeastEmpty.makeEmptyValue_le
    cdpCoinPair s
  have hl : l = (block acc .cdpRatioIndex cdpCoinPair s).filter fun e =>
      (get1 e.1).value ≤ ratioBoost := by
    -- within the pair, the ratios ascend
    refine (takeWhile_eq_filter (hw.ascending.imp_of_mem fun {e e'} he he' hlt hle => ?_)).1
    have h₀ := get0_of_mem_block acc _ _ he
    have h₀' := get0_of_mem_block acc _ _ he'
    have hratio := (CFixedUInt64.le_iff _ _).mp (get1_le hlt.le (h₀.trans h₀'.symm))
    exact decide_eq_true (UInt64.le_trans hratio (of_decide_eq_true hle))
  refine ⟨hl ▸ hw.ascending.filter _, fun key cdp => ?_⟩
  rw [hl, List.mem_filter, hw.mem, decide_eq_true_iff]
  tauto

/-- Every live entry of the pair up to the threshold is reached by the walk. -/
def AllReached (acc : CDBAccess) (s : CacheStack CdpRatioIndexKey IneryUserCDP)
    (cdpCoinPair : IneryCdpCoinPair) (ratioBoost : UInt64) : Prop :=
  ∀ key, (CacheStack.view acc .cdpRatioIndex s key).isSome = true → get0 key = cdpCoinPair →
    (get1 key).value ≤ ratioBoost → Reached acc .cdpRatioIndex cdpCoinPair s key

theorem isCdpList_iff (hdb : StoredLive CdpRatioIndexKey IneryUserCDP acc .cdpRatioIndex)
    (s : CacheStack CdpRatioIndexKey IneryUserCDP) (cdpCoinPair : IneryCdpCoinPair) (ratioBoost : UInt64) :
    (∃ cdpList, getCdpListByCollateralRatio acc s cdpCoinPair ratioBoost = some cdpList ∧
      IsCdpList (CacheStack.view acc .cdpRatioIndex s) cdpCoinPair ratioBoost cdpList) ↔
    AllReached acc s cdpCoinPair ratioBoost := by
  obtain ⟨hasc, hmem⟩ := mem_takeWhile_block hfixed huint hdb s cdpCoinPair ratioBoost
  rw [getCdpListByCollateralRatio_eq hfixed huint hdb.wellStored]
  constructor
  · rintro ⟨cdpList, hlist, entries, hasc', hmem', rfl⟩ key hview h₀ hle
    obtain ⟨cdp, hcdp⟩ := Option.isSome_iff_exists.mp hview
    -- the list is a part of the right one and as long as it, so it misses no entry
    have hlen := congrArg List.length (Option.some.inj hlist)
    rw [List.length_map, List.length_map] at hlen
    have hsub := List.subperm_of_subset hasc.nodup fun ⟨key, cdp⟩ he =>
      (hmem' key cdp).mpr ((hmem key cdp).mp he).1
    have hperm := hsub.perm_of_length_le hlen.ge
    exact ((hmem key cdp).mp (hperm.mem_iff.mpr ((hmem' key cdp).mpr ⟨hcdp, h₀, hle⟩))).2
  · intro hall
    refine ⟨_, rfl, _, hasc, fun key cdp => ?_, rfl⟩
    rw [hmem, and_iff_left_of_imp]
    exact fun ⟨hview, h₀, hle⟩ => hall key (Option.isSome_iff_exists.mpr ⟨cdp, hview⟩) h₀ hle

/-- **The liquidation list of two stacks with one view.** Over any databases that flushes have left:
both give the same list, and it is the right one, exactly when in either of them every live entry of
the pair up to the threshold is reached. -/
theorem getCdpListByCollateralRatio_iff {acc' : CDBAccess}
    (hdb : StoredLive CdpRatioIndexKey IneryUserCDP acc .cdpRatioIndex)
    (hdb' : StoredLive CdpRatioIndexKey IneryUserCDP acc' .cdpRatioIndex)
    (s s' : CacheStack CdpRatioIndexKey IneryUserCDP)
    (hview : CacheStack.view acc .cdpRatioIndex s = CacheStack.view acc' .cdpRatioIndex s')
    (cdpCoinPair : IneryCdpCoinPair) (ratioBoost : UInt64) :
    (getCdpListByCollateralRatio acc s cdpCoinPair ratioBoost =
        getCdpListByCollateralRatio acc' s' cdpCoinPair ratioBoost ∧
      ∃ cdpList, getCdpListByCollateralRatio acc s cdpCoinPair ratioBoost = some cdpList ∧
        IsCdpList (CacheStack.view acc .cdpRatioIndex s) cdpCoinPair ratioBoost cdpList) ↔
    AllReached acc s cdpCoinPair ratioBoost ∧ AllReached acc' s' cdpCoinPair ratioBoost := by
  rw [← isCdpList_iff hfixed huint hdb, ← isCdpList_iff hfixed huint hdb', ← hview]
  constructor
  · rintro ⟨heq, cdpList, hlist, hcdps⟩
    exact ⟨⟨cdpList, hlist, hcdps⟩, cdpList, heq ▸ hlist, hcdps⟩
  · rintro ⟨⟨cdpList, hlist, hcdps⟩, cdpList', hlist', hcdps'⟩
    obtain rfl : cdpList = cdpList' := by
      obtain ⟨entries, hasc, hmem, rfl⟩ := hcdps
      obtain ⟨entries', hasc', hmem', rfl⟩ := hcdps'
      rw [hasc.ext hasc' fun ⟨key, cdp⟩ => (hmem key cdp).trans (hmem' key cdp).symm]
    exact ⟨hlist.trans hlist'.symm, cdpList, hlist, hcdps⟩

end Spec

/-! ## Two coin pairs -/

namespace BigEndianKeys

/-- The pair of `WICC` and `WUSD`. -/
def wicc : IneryCdpCoinPair := ⟨bytesOf "WICC", bytesOf "WUSD"⟩

/-- A pair that is smaller as strings, but has a longer first symbol. -/
def ethx : IneryCdpCoinPair := ⟨bytesOf "ETHX1", bytesOf "WUSD"⟩

/-- The key of a CDP of 200 percent, made at height 7. -/
def indexKey (coinPair : IneryCdpCoinPair) (cdpid : Uint256) : CdpRatioIndexKey :=
  toLex (coinPair, toLex (⟨20000⟩, toLex (⟨7⟩, cdpid)))

/-- A flushed CDP of the other pair. -/
def acc : CDBAccess := ⟨.cdp, (∅ : LevelDb).insert (genDbKey .cdpRatioIndex (indexKey ethx 1)) [6]⟩

/-- A CDP of `wicc` that has not been flushed. -/
def cache : IneryCompositeKVCache CdpRatioIndexKey Byte := ⟨(∅ : SortedMap _ _).insert (indexKey wicc 2) 5, false, 0⟩

theorem storedLive_acc : StoredLive CdpRatioIndexKey Byte acc .cdpRatioIndex := by
  intro r hr _
  obtain rfl : r = (genDbKey .cdpRatioIndex (indexKey ethx 1), [6]) := List.mem_singleton.mp hr
  exact ⟨indexKey ethx 1, 6, rfl, rfl⟩

theorem list_cached : getCdpListByCollateralRatio acc [cache] wicc 30000 = some [] := by decide +kernel

theorem list_flushed : getCdpListByCollateralRatio (CacheStack.flush acc .cdpRatioIndex [cache]).1
    (CacheStack.flush acc .cdpRatioIndex [cache]).2 wicc 30000 = some [5] := by decide +kernel

/-- **A cached CDP is cut off** by the flushed one of the other pair; a flush brings it back. -/
theorem liquidation_list_depends_on_flush :
    CacheStack.view acc .cdpRatioIndex [cache] =
        CacheStack.view (CacheStack.flush acc .cdpRatioIndex [cache]).1 .cdpRatioIndex
          (CacheStack.flush acc .cdpRatioIndex [cache]).2 ∧
      getCdpListByCollateralRatio acc [cache] wicc 30000 ≠
        getCdpListByCollateralRatio (CacheStack.flush acc .cdpRatioIndex [cache]).1
          (CacheStack.flush acc .cdpRatioIndex [cache]).2 wicc 30000 := by
  refine ⟨(CacheStack.view_flush acc .cdpRatioIndex (genDbKey_injective _) cache []).symm, ?_⟩
  rw [list_cached, list_flushed]
  exact nofun

/-- The cached CDP is not reached. -/
theorem getCdpListByCollateralRatio_iff_wicc : ¬(AllReached acc [cache] wicc 30000 ∧
    AllReached (CacheStack.flush acc .cdpRatioIndex [cache]).1
      (CacheStack.flush acc .cdpRatioIndex [cache]).2 wicc 30000) := by
  intro h
  have hlist := (getCdpListByCollateralRatio_iff sameOrder_fixed sameOrder_uint256 storedLive_acc
    (storedLive_flush storedLive_acc [cache]) [cache] (CacheStack.flush acc .cdpRatioIndex [cache]).2
    (CacheStack.view_flush acc .cdpRatioIndex (genDbKey_injective _) cache []).symm wicc 30000).mpr h
  rw [list_cached, list_flushed] at hlist
  exact absurd hlist.1 nofun

end BigEndianKeys

end Inery
