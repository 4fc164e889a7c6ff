import IneryPersistence.Cdp.Store

/-!
# One set of CDPs behind four records

* `CdpStore`: the maps of the store describe one set of CDPs, and the totals add it up;
* **`CdpStore.add`**, **`CdpStore.remove`**: they follow a CDP that comes or goes;
* `Admits`: what a caller of `NewCDP`, `UpdateCDP` and `EraseCDP` has to grant;
* `step_store`, **`cdp_store_invariant`**: one operation, and every run of them.
-/

namespace Inery

open KV

/-! ## The maps -/

theorem makeCdpRatioIndexKey_cdpid {ratio : IneryUserCDP → UInt64} {cdp cdp' : IneryUserCDP}
    (h : makeCdpRatioIndexKey ratio cdp = makeCdpRatioIndexKey ratio cdp') : cdp.cdpid = cdp'.cdpid :=
  congrArg (fun key : CdpRatioIndexKey => (ofLex (ofLex (ofLex key).2).2).2) h

theorem makeCdpHeightIndexKey_cdpid {cdp cdp' : IneryUserCDP}
    (h : makeCdpHeightIndexKey cdp = makeCdpHeightIndexKey cdp') : cdp.cdpid = cdp'.cdpid :=
  congrArg (fun key : CdpHeightIndexKey => (ofLex (ofLex key).2).2) h

theorem toNat_add_mod {x y : UInt64} {t : ℕ} (h : x.toNat = t % 2 ^ 64) :
    (x + y).toNat = (y.toNat + t) % 2 ^ 64 := by
  rw [UInt64.toNat_add]
  omega

theorem toNat_sub_mod {x y : UInt64} {t : ℕ} (h : x.toNat = (y.toNat + t) % 2 ^ 64) :
    (x - y).toNat = t % 2 ^ 64 := by
  have hy := y.toNat_lt
  rw [UInt64.toNat_sub]
  omega

section Store

variable [DbUtil Uint256] [DbUtil IneryRegIDKey] [DbUtil IneryCdpCoinPair] [DbUtil IneryCdpGlobalData]

/-- **The maps describe the live CDPs.** -/
structure CdpStore (ratio : IneryUserCDP → UInt64) (v : CdpViews) (cdps : Finset IneryUserCDP) :
    Prop where
  named : ∀ cdp ∈ cdps, cdp.Named
  cdp : Indexes v.cdp IneryUserCDP.cdpid id cdps
  userCdp : Indexes v.userCdp IneryUserCDP.userKey (fun cdp => some cdp.cdpid) cdps
  ratioIndex : Indexes v.ratioIndex (makeCdpRatioIndexKey ratio) id cdps
  heightIndex : Indexes v.heightIndex makeCdpHeightIndexKey id cdps
  owners : Set.InjOn IneryUserCDP.userKey cdps
  staked : ∀ coinPair, (v.data coinPair).totalStakedAssets.toNat =
    total IneryUserCDP.getCoinPair (fun cdp => cdp.totalStakedINRs.toNat) cdps coinPair % 2 ^ 64
  owed : ∀ coinPair, (v.data coinPair).totalOwedScoins.toNat =
    total IneryUserCDP.getCoinPair (fun cdp => cdp.totalOwedScoins.toNat) cdps coinPair % 2 ^ 64

namespace CdpStore

variable {ratio : IneryUserCDP → UInt64} {v : CdpViews} {cdps : Finset IneryUserCDP}
  (h : CdpStore ratio v cdps)
include h

theorem ids : Set.InjOn IneryUserCDP.cdpid (cdps : Set IneryUserCDP) := fun cdp hcdp cdp' hcdp' heq => by
  have h₁ := h.cdp.find hcdp
  rw [heq, h.cdp.find hcdp'] at h₁
  exact (Option.some.inj h₁).symm

theorem mem_iff (cdp : IneryUserCDP) : cdp ∈ cdps ↔ v.cdp cdp.cdpid = some cdp := by
  refine ⟨fun hcdp => h.cdp.find hcdp, fun hv => ?_⟩
  obtain ⟨cdp', hcdp', -, rfl⟩ := (h.cdp _ _).mp hv
  exact hcdp'

variable (hdata : ∀ data : IneryCdpGlobalData, isEmpty data = true ↔
  data.totalStakedAssets = 0 ∧ data.totalOwedScoins = 0)
  (hdflt : isEmpty (DbUtil.dflt : IneryCdpGlobalData) = true)
include hdata hdflt

omit [DbUtil Uint256] [DbUtil IneryRegIDKey] [DbUtil IneryCdpCoinPair] h in
theorem getD_live (data : IneryCdpGlobalData) : (live (some data)).getD DbUtil.dflt = data := by
  cases he : isEmpty data with
  | false => rw [live_of_not_isEmpty he, Option.getD_some]
  | true =>
    obtain ⟨hs, ho⟩ := (hdata _).mp he
    obtain ⟨hs', ho'⟩ := (hdata _).mp hdflt
    rw [live_of_isEmpty he, Option.getD_none]
    exact IneryCdpGlobalData.ext (hs'.trans hs.symm) (ho'.trans ho.symm)

omit [DbUtil Uint256] [DbUtil IneryRegIDKey] [DbUtil IneryCdpCoinPair] h in
theorem data_setData (v : CdpViews) (coinPair : IneryCdpCoinPair) (data : IneryCdpGlobalData) :
    (v.setData coinPair data).data = Function.update v.data coinPair data := by
  funext coinPair'
  show (Function.update v.globalData coinPair (live (some data)) coinPair').getD DbUtil.dflt = _
  by_cases hp : coinPair' = coinPair
  · subst hp
    rw [Function.update_self, Function.update_self, getD_live hdata hdflt]
  · rw [Function.update_of_ne hp, Function.update_of_ne hp]
    rfl

theorem add {cdp : IneryUserCDP} (hnamed : cdp.Named) (hid : ∀ cdp' ∈ cdps, cdp'.cdpid ≠ cdp.cdpid)
    (howner : ∀ cdp' ∈ cdps, cdp'.userKey ≠ cdp.userKey) :
    CdpStore ratio ((v.put cdp).save ratio cdp) (insert cdp cdps) := by
  have hnew : cdp ∉ cdps := fun hcdp => hid cdp hcdp rfl
  have hsave : ∀ coinPair, ((v.put cdp).save ratio cdp).data coinPair = Function.update v.data
      cdp.getCoinPair ⟨(v.data cdp.getCoinPair).totalStakedAssets + cdp.totalStakedINRs,
        (v.data cdp.getCoinPair).totalOwedScoins + cdp.totalOwedScoins⟩ coinPair := fun coinPair =>
    congrFun (data_setData hdata hdflt v _ _) coinPair
  refine ⟨?_, h.cdp.insert hid, h.userCdp.insert howner, ?_, ?_, ?_, fun coinPair => ?_,
    fun coinPair => ?_⟩
  · intro cdp' hcdp'
    rcases Finset.mem_insert.mp hcdp' with rfl | hcdp'
    · exact hnamed
    · exact h.named cdp' hcdp'
  · exact h.ratioIndex.insert fun cdp' hcdp' heq => hid cdp' hcdp' (makeCdpRatioIndexKey_cdpid heq)
  · exact h.heightIndex.insert fun cdp' hcdp' heq => hid cdp' hcdp' (makeCdpHeightIndexKey_cdpid heq)
  · rw [Finset.coe_insert, Set.injOn_insert (by simpa using hnew)]
    refine ⟨h.owners, ?_⟩
    rintro ⟨cdp', hcdp', heq⟩
    exact howner cdp' hcdp' heq
  · rw [hsave, total_insert hnew]
    split_ifs with hp
    · subst hp
      rw [Function.update_self]
      exact toNat_add_mod (h.staked _)
    · rw [Function.update_of_ne (Ne.symm hp), Nat.zero_add]
      exact h.staked coinPair
  · rw [hsave, total_insert hnew]
    split_ifs with hp
    · subst hp
      rw [Function.update_self]
      exact toNat_add_mod (h.owed _)
    · rw [Function.update_of_ne (Ne.symm hp), Nat.zero_add]
      exact h.owed coinPair

theorem remove {cdp : IneryUserCDP} (hcdp : cdp ∈ cdps) :
    CdpStore ratio ((v.remove cdp).unsave ratio cdp) (cdps.erase cdp) := by
  have hunsave : ∀ coinPair, ((v.remove cdp).unsave ratio cdp).data coinPair = Function.update v.data
      cdp.getCoinPair ⟨(v.data cdp.getCoinPair).totalStakedAssets - cdp.totalStakedINRs,
        (v.data cdp.getCoinPair).totalOwedScoins - cdp.totalOwedScoins⟩ coinPair := fun coinPair =>
    congrFun (data_setData hdata hdflt v _ _) coinPair
  refine ⟨fun cdp' hcdp' => h.named cdp' (Finset.mem_of_mem_erase hcdp'), h.cdp.erase h.ids hcdp,
    h.userCdp.erase h.owners hcdp, ?_, ?_, h.owners.mono (Finset.erase_subset cdp cdps),
    fun coinPair => ?_, fun coinPair => ?_⟩
  · refine h.ratioIndex.erase (fun cdp₁ h₁ cdp₂ h₂ heq => ?_) hcdp
    exact h.ids h₁ h₂ (makeCdpRatioIndexKey_cdpid heq)
  · refine h.heightIndex.erase (fun cdp₁ h₁ cdp₂ h₂ heq => ?_) hcdp
    exact h.ids h₁ h₂ (makeCdpHeightIndexKey_cdpid heq)
  · have htotal := h.staked coinPair
    rw [← total_erase hcdp] at htotal
    rw [hunsave]
    split_ifs at htotal with hp
    · subst hp
      rw [Function.update_self]
      exact toNat_sub_mod htotal
    · rw [Function.update_of_ne (Ne.symm hp)]
      rwa [Nat.zero_add] at htotal
  · have htotal := h.owed coinPair
    rw [← total_erase hcdp] at htotal
    rw [hunsave]
    split_ifs at htotal with hp
    · subst hp
      rw [Function.update_self]
      exact toNat_sub_mod htotal
    · rw [Function.update_of_ne (Ne.symm hp)]
      rwa [Nat.zero_add] at htotal

end CdpStore

end Store

/-! ## The runs -/

section Runs

variable [CompactSize] [DbUtil IneryCdpCoinPair] [Serial Uint256] [DbUtil Uint256]
  [Serial IneryRegIDKey] [DbUtil IneryRegIDKey] [Serial CFixedUInt64] [DbUtil CFixedUInt64]
  [Serial IneryCdpGlobalData] [DbUtil IneryCdpGlobalData] [Serial IneryUserCDP] [DbUtil IneryUserCDP]
  [Serial (Option Uint256)] (acc : CDBAccess) (ratio : IneryUserCDP → UInt64)

/-- What the caller grants: a new CDP has an id of its own and is the only one of its owner and coin
pair; an old one is the one that is stored, and the second one has its id, owner and coin pair. -/
def CdpOp.Admits (v : CdpViews) : CdpOp → Prop
  | new cdp => cdp.Named ∧ v.cdp cdp.cdpid = none ∧
      ∀ cdp', v.cdp cdp'.cdpid = some cdp' → cdp'.userKey ≠ cdp.userKey
  | update oldCDP cdp | erase oldCDP cdp => v.cdp oldCDP.cdpid = some oldCDP ∧
      cdp.cdpid = oldCDP.cdpid ∧ cdp.ownerRegid = oldCDP.ownerRegid ∧
        cdp.getCoinPair = oldCDP.getCoinPair

namespace IneryCdpDBCache

/-- The records of the store agree with `cdp_cache`, and the totals with its CDPs. -/
structure InStep (st : IneryCdpDBCache) : Prop where
  cdp : ∀ cdpid cdp, (st.views acc).cdp cdpid = some cdp → cdp.cdpid = cdpid
  ratioIndex : ∀ key cdp, (st.views acc).ratioIndex key = some cdp ↔
    (st.views acc).cdp cdp.cdpid = some cdp ∧ makeCdpRatioIndexKey ratio cdp = key
  heightIndex : ∀ key cdp, (st.views acc).heightIndex key = some cdp ↔
    (st.views acc).cdp cdp.cdpid = some cdp ∧ makeCdpHeightIndexKey cdp = key
  userCdp : ∀ key cdpid, (st.views acc).userCdp key = some (some cdpid) ↔
    ∃ cdp, (st.views acc).cdp cdpid = some cdp ∧ cdp.userKey = key
  totals : ∃ cdps : Finset IneryUserCDP, (∀ cdp, cdp ∈ cdps ↔ (st.views acc).cdp cdp.cdpid = some cdp) ∧
    ∀ coinPair, isEmpty coinPair = false →
      let data := (st.getCdpGlobalData acc coinPair).1
      let staked := total IneryUserCDP.getCoinPair (fun cdp => cdp.totalStakedINRs.toNat) cdps coinPair
      let owed := total IneryUserCDP.getCoinPair (fun cdp => cdp.totalOwedScoins.toNat) cdps coinPair
      data.totalStakedAssets.toNat = staked % 2 ^ 64 ∧ data.totalOwedScoins.toNat = owed % 2 ^ 64 ∧
        ∀ cdp ∈ cdps, cdp.getCoinPair = coinPair →
          (staked < 2 ^ 64 → cdp.totalStakedINRs ≤ data.totalStakedAssets) ∧
          (owed < 2 ^ 64 → cdp.totalOwedScoins ≤ data.totalOwedScoins)

variable {acc ratio}

omit [DbUtil CFixedUInt64] in
theorem inStep_of_store {st : IneryCdpDBCache} (hst : st.Built) {cdps : Finset IneryUserCDP}
    (h : CdpStore ratio (st.views acc) cdps) : st.InStep acc ratio := by
  have hindex : ∀ {K : Type} {view : K → Option IneryUserCDP} {key : IneryUserCDP → K},
      Indexes view key id cdps → ∀ k cdp, view k = some cdp ↔
        (st.views acc).cdp cdp.cdpid = some cdp ∧ key cdp = k := by
    intro K view key hview k cdp
    rw [hview, ← h.mem_iff]
    constructor
    · rintro ⟨cdp', hcdp', hkey, rfl⟩
      exact ⟨hcdp', hkey⟩
    · rintro ⟨hcdp, hkey⟩
      exact ⟨cdp, hcdp, hkey, rfl⟩
  refine ⟨fun cdpid cdp hcdp => ((hindex h.cdp cdpid cdp).mp hcdp).2, hindex h.ratioIndex,
    hindex h.heightIndex, fun key cdpid => ?_, cdps, h.mem_iff, fun coinPair hpair => ?_⟩
  · rw [h.userCdp]
    constructor
    · rintro ⟨cdp, hcdp, hkey, hid⟩
      obtain rfl := Option.some.inj hid
      exact ⟨cdp, (h.mem_iff cdp).mp hcdp, hkey⟩
    · rintro ⟨cdp, hcdp, hkey⟩
      obtain rfl := ((hindex h.cdp cdpid cdp).mp hcdp).2
      exact ⟨cdp, (h.mem_iff cdp).mpr hcdp, hkey, rfl⟩
  · obtain ⟨st', heq, -, -⟩ := getCdpGlobalData_spec acc hst hpair
    rw [heq]
    refine ⟨h.staked coinPair, h.owed coinPair, fun cdp hcdp hp => ⟨fun hlt => ?_, fun hlt => ?_⟩⟩
    · have hle := le_total IneryUserCDP.getCoinPair (fun cdp => cdp.totalStakedINRs.toNat) hcdp
      have hstaked := h.staked coinPair
      rw [hp] at hle
      rw [Nat.mod_eq_of_lt hlt] at hstaked
      rw [UInt64.le_iff_toNat_le, hstaked]
      exact hle
    · have hle := le_total IneryUserCDP.getCoinPair (fun cdp => cdp.totalOwedScoins.toNat) hcdp
      have howed := h.owed coinPair
      rw [hp] at hle
      rw [Nat.mod_eq_of_lt hlt] at howed
      rw [UInt64.le_iff_toNat_le, howed]
      exact hle

variable [LawfulDbUtil IneryUserCDP]
  (hcdp : ∀ cdp : IneryUserCDP, isEmpty cdp = isEmpty cdp.cdpid)
  (hdata : ∀ data : IneryCdpGlobalData, isEmpty data = true ↔
    data.totalStakedAssets = 0 ∧ data.totalOwedScoins = 0)
  (hdflt : isEmpty (DbUtil.dflt : IneryCdpGlobalData) = true)
include hcdp hdata hdflt

/-- **One operation** takes the set of CDPs to the next one. -/
theorem step_store {st : IneryCdpDBCache} {op : CdpOp}
    (h : st.Built ∧ ∃ cdps, CdpStore ratio (st.views acc) cdps) (hop : op.Admits (st.views acc)) :
    ∃ st', step acc ratio st op = some st' ∧ st'.Built ∧ ∃ cdps, CdpStore ratio (st'.views acc) cdps := by
  obtain ⟨hst, cdps, h⟩ := h
  -- the second CDP of an update or an erasure stands at the same records as the stored one
  have hsame : ∀ {oldCDP cdp : IneryUserCDP}, cdp.ownerRegid = oldCDP.ownerRegid →
      cdp.getCoinPair = oldCDP.getCoinPair → cdp.userKey = oldCDP.userKey := by
    intro oldCDP cdp howner hpair
    rw [IneryUserCDP.userKey, IneryUserCDP.userKey, howner, hpair]
  cases op with
  | new cdp =>
    obtain ⟨hnamed, hfresh, hone⟩ := hop
    obtain ⟨st', heq, hst', hviews⟩ := newCDP_spec acc ratio hst hnamed (by rw [hcdp, hnamed.1])
    refine ⟨st', by rw [step, heq], hst', _, hviews ▸ h.add hdata hdflt hnamed ?_ ?_⟩
    · intro cdp' hcdp' hid
      rw [h.mem_iff, hid, hfresh] at hcdp'
      exact absurd hcdp'.symm (Option.some_ne_none _)
    · exact fun cdp' hcdp' => hone cdp' ((h.mem_iff cdp').mp hcdp')
  | update oldCDP newCDP =>
    obtain ⟨hstored, hid, howner, hpair⟩ := hop
    have hmem := (h.mem_iff oldCDP).mpr hstored
    have huser := hsame howner hpair
    have hnamed := h.named oldCDP hmem
    have hnew : newCDP.Named := by rwa [IneryUserCDP.Named, hid, howner, hpair]
    obtain ⟨st', heq, hst', hviews⟩ := updateCDP_spec acc ratio hst hnamed (by rw [hcdp, hnew.1]) hid
      huser hnew (h.userCdp.find hmem)
    refine ⟨st', by rw [step, heq]; rfl, hst', _,
      hviews ▸ (h.remove hdata hdflt hmem).add hdata hdflt hnew ?_ ?_⟩
    · intro cdp' hcdp' heq
      obtain ⟨hne, hcdp'⟩ := Finset.mem_erase.mp hcdp'
      exact hne (h.ids hcdp' hmem (heq.trans hid))
    · intro cdp' hcdp' heq
      obtain ⟨hne, hcdp'⟩ := Finset.mem_erase.mp hcdp'
      exact hne (h.owners hcdp' hmem (heq.trans huser))
  | erase oldCDP cdp =>
    obtain ⟨hstored, hid, howner, hpair⟩ := hop
    have hmem := (h.mem_iff oldCDP).mpr hstored
    obtain ⟨st', heq, hst', hviews⟩ :=
      eraseCDP_spec acc ratio hst (h.named oldCDP hmem) hid (hsame howner hpair)
    exact ⟨st', by rw [step, heq], hst', _, hviews ▸ h.remove hdata hdflt hmem⟩

/-- **The store is in step in every reachable state.** From an empty store over any database, every
run of `NewCDP`, `UpdateCDP` and `EraseCDP` whose callers grant `Admits` ends, and in the state it
ends in the user records, the two indexes and the totals are those of the CDPs in `cdp_cache`. -/
theorem cdp_store_invariant {st : IneryCdpDBCache} (hst : st.Built)
    (hempty : st.views acc = ⟨fun _ => none, fun _ => none, fun _ => none, fun _ => none, fun _ => none⟩)
    {ops : List CdpOp}
    (hops : AllSteps (step acc ratio) (fun st op => op.Admits (st.views acc)) st ops) :
    ∃ st', run (step acc ratio) st ops = some st' ∧ st'.InStep acc ratio := by
  have hstart : CdpStore ratio (st.views acc) ∅ := by
    have hzero : ∀ coinPair, (st.views acc).data coinPair = DbUtil.dflt := fun _ => by
      rw [hempty]
      rfl
    obtain ⟨hs, ho⟩ := (hdata _).mp hdflt
    refine ⟨by simp, ?_, ?_, ?_, ?_, by simp, fun coinPair => ?_, fun coinPair => ?_⟩
    · exact hempty ▸ Indexes.empty _ _
    · exact hempty ▸ Indexes.empty _ _
    · exact hempty ▸ Indexes.empty _ _
    · exact hempty ▸ Indexes.empty _ _
    · rw [hzero, hs]
      rfl
    · rw [hzero, ho]
      rfl
  obtain ⟨st', hrun, hst', cdps, h⟩ := run_exists (step acc ratio)
    (fun st op hI hop => step_store hcdp hdata hdflt hI hop) ⟨hst, ∅, hstart⟩ hops
  exact ⟨st', hrun, inStep_of_store hst' h⟩

end IneryCdpDBCache

end Runs

namespace BigEndianKeys

scoped instance : Serial IneryCdpGlobalData where
  ser data := ser (toLex (⟨data.totalStakedAssets⟩, ⟨data.totalOwedScoins⟩) : CFixedUInt64 ×ₗ CFixedUInt64)
  unser bytes := (unser (α := CFixedUInt64 ×ₗ CFixedUInt64) bytes).map fun r =>
    (⟨(ofLex r.1).1.value, (ofLex r.1).2.value⟩, r.2)

scoped instance : DbUtil IneryCdpGlobalData :=
  ⟨⟨0, 0⟩, fun data => data.totalStakedAssets == 0 && data.totalOwedScoins == 0, fun _ => ⟨0, 0⟩⟩

/-- The fields of a CDP, one after the other. -/
abbrev CdpFields := Uint256 ×ₗ IneryRegIDKey ×ₗ CFixedUInt64 ×ₗ TokenSymbol ×ₗ TokenSymbol ×ₗ
  CFixedUInt64 ×ₗ CFixedUInt64 ×ₗ CFixedUInt64

scoped instance : Serial IneryUserCDP where
  ser cdp := ser (toLex (cdp.cdpid, toLex (⟨cdp.ownerRegid⟩, toLex (⟨cdp.blockHeight⟩,
    toLex (cdp.assetSymbol, toLex (cdp.scoinSymbol, toLex (⟨cdp.totalStakedINRs⟩,
      toLex (⟨cdp.totalOwedScoins⟩, ⟨cdp.collateralRatioBase⟩))))))) : CdpFields)
  unser bytes := (unser (α := CdpFields) bytes).map fun
    | ((cdpid, owner, height, asset, scoin, staked, owed, base), rest) =>
      (⟨cdpid, owner.regid, height.value, asset, scoin, staked.value, owed.value, base.value⟩, rest)

scoped instance : DbUtil IneryUserCDP where
  dflt := ⟨0, toLex (0, 0), 0, [], [], 0, 0, 0⟩
  isEmpty cdp := cdp.cdpid == 0
  setEmpty cdp := { cdp with cdpid := 0 }

scoped instance : LawfulDbUtil IneryUserCDP := ⟨fun _ => rfl⟩

scoped instance : Serial (Option Uint256) where
  ser
    | none => [0]
    | some n => 1 :: ser n
  unser
    | [] => none
    | b :: bytes => if b = 0 then some (none, bytes) else (unser bytes).map fun r => (some r.1, r.2)

/-- A store of one level over an empty database. -/
def emptyStore : IneryCdpDBCache :=
  ⟨[⟨∅, true, 0⟩], [⟨∅, true, 0⟩], [⟨∅, true, 0⟩], [⟨∅, true, 0⟩], [⟨∅, true, 0⟩], none⟩

/-- A CDP of 100 staked coins. -/
def staked100 : IneryUserCDP := ⟨1, toLex (1, 2), 5, bytesOf "WICC", bytesOf "WUSD", 100, 50, 20000⟩

/-- A CDP is made, gets another stake, and with it another ratio, and is erased. -/
theorem cdp_store_invariant_run : ∃ st, run (IneryCdpDBCache.step ⟨.cdp, ∅⟩ fun cdp => cdp.totalStakedINRs)
    emptyStore [.new staked100, .update staked100 { staked100 with totalStakedINRs := 250 },
      .erase { staked100 with totalStakedINRs := 250 } staked100] = some st ∧
        st.InStep ⟨.cdp, ∅⟩ fun cdp => cdp.totalStakedINRs := by
  refine IneryCdpDBCache.cdp_store_invariant (fun _ => rfl) (fun data => ?_) rfl
    ⟨List.cons_ne_nil _ _, List.cons_ne_nil _ _, List.cons_ne_nil _ _, List.cons_ne_nil _ _,
      List.cons_ne_nil _ _⟩ rfl
    ⟨⟨⟨rfl, rfl, rfl⟩, rfl, fun _ h => absurd h nofun⟩, fun st₁ h₁ => ?_⟩
  · simp [isEmpty]
  · obtain rfl := Option.some.inj h₁
    refine ⟨⟨by decide +kernel, rfl, rfl, rfl⟩, fun st₂ h₂ => ?_⟩
    obtain rfl := Option.some.inj h₂
    exact ⟨⟨by decide +kernel, rfl, rfl, rfl⟩, fun _ _ => trivial⟩

end BigEndianKeys

end Inery
