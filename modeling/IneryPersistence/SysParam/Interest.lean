import IneryPersistence.SysParam.ReadBack
import IneryPersistence.Lib.Timeline
import IneryPersistence.Lib.Runs
import Mathlib.Data.List.Induction
import Mathlib.Data.List.TakeWhile

/-!
# The history of the interest parameters

Every change of one interest parameter stores both of them, the other one as `GetCdpParam` returns it. A
parameter that was set to zero is returned as its default.

* `InterestChange`, `step`: a change, as `SetCdpParam` and then `SetCdpInterestParam`;
* `lastValue`, `lastAt`: the last change of a parameter, up to a height;
* `mem_addChanges`, **`changesOf_spec`**: the intervals of a history, and their values;
* `step_spec`, `Recorded`: what a change records;
* **`interest_history`**: the history reports what was set exactly when no change meets a zero of the other
  parameter.
-/

namespace Inery

open KV

/-! ## Intervals -/

namespace InterestParams

/-- The two parameters of an interval. -/
def params (change : IneryCdpInterestParamChange) : IneryCdpInterestParams := ⟨change.paramA, change.paramB⟩

theorem beginHeight_le {endHeight : ℤ} {rest : List (ℤ × IneryCdpInterestParams)}
    {back change : IneryCdpInterestParamChange} (hrest : ∀ e ∈ rest, back.beginHeight < e.1)
    (hasc : Ascending rest) (h : change ∈ addChanges endHeight back rest) :
    back.beginHeight ≤ change.beginHeight := by
  induction rest generalizing back with
  | nil =>
    rw [addChanges, List.mem_singleton] at h
    rw [h]
  | cons e rest ih =>
    obtain ⟨height, item⟩ := e
    rw [addChanges] at h
    split_ifs at h with hend
    · rw [List.mem_singleton.mp h]
    · rcases List.mem_cons.mp h with rfl | h
      · exact le_rfl
      · exact (hrest _ List.mem_cons_self).le.trans (ih (fun e he => hasc.head_lt e he) hasc.tail h)

theorem mem_addChanges {endHeight x : ℤ} (hx : x ≤ endHeight) {rest : List (ℤ × IneryCdpInterestParams)}
    (back : IneryCdpInterestParamChange) (hback : back.beginHeight ≤ x)
    (hrest : ∀ e ∈ rest, back.beginHeight < e.1) (hasc : Ascending rest) :
    (∃ change ∈ addChanges endHeight back rest, change.beginHeight ≤ x ∧ x ≤ change.endHeight) ∧
      ∀ change ∈ addChanges endHeight back rest, change.beginHeight ≤ x → x ≤ change.endHeight →
        params change = valueAt rest (params back) x := by
  induction rest generalizing back with
  | nil =>
    refine ⟨⟨{ back with endHeight := endHeight }, List.mem_singleton_self _, hback, hx⟩, ?_⟩
    intro change hmem _ _
    rw [List.mem_singleton.mp hmem]
    rfl
  | cons e rest ih =>
    obtain ⟨height, item⟩ := e
    rw [addChanges]
    split_ifs with hend
    · -- the next change is behind the end
      refine ⟨⟨{ back with endHeight := endHeight }, List.mem_singleton_self _, hback, hx⟩, ?_⟩
      intro change hmem _ _
      rw [List.mem_singleton.mp hmem, valueAt_cons, if_neg (by omega)]
      rfl
    · have hhead := hrest _ List.mem_cons_self
      rcases lt_or_ge x height with hlt | hge
      · refine ⟨⟨{ back with endHeight := height - 1 }, List.mem_cons_self, hback, by dsimp only; omega⟩, ?_⟩
        intro change hmem hbegin _
        rw [valueAt_cons, if_neg hlt.not_ge]
        rcases List.mem_cons.mp hmem with rfl | hmem
        · rfl
        · have hle := beginHeight_le (fun e he => hasc.head_lt e he) hasc.tail hmem
          dsimp only at hle
          omega
      · obtain ⟨⟨change, hmem, hin⟩, hall⟩ := ih ⟨height, 0, item.paramA, item.paramB⟩ hge
          (fun e he => hasc.head_lt e he) hasc.tail
        refine ⟨⟨change, List.mem_cons_of_mem _ hmem, hin⟩, ?_⟩
        intro change hmem hbegin hend'
        rw [valueAt_cons, if_pos hge]
        rcases List.mem_cons.mp hmem with rfl | hmem
        · dsimp only at hend'
          omega
        · exact hall change hmem hbegin hend'

/-- The parameters of a pair without a change. -/
def defaults (tables : SysParamTables) : IneryCdpInterestParams :=
  ⟨tables.getCdpParamDefaultValue tables.cdpInterestParamA,
    tables.getCdpParamDefaultValue tables.cdpInterestParamB⟩

/-- **The intervals of a history** cover the heights that are asked for, with the values at each of them. -/
theorem changesOf_spec (tables : SysParamTables) (m : IneryCdpInterestParamChangeMap) {b e x : ℤ}
    (hb : b ≤ x) (hx : x ≤ e) :
    (∃ change ∈ changesOf tables m b e, change.beginHeight ≤ x ∧ x ≤ change.endHeight) ∧
      ∀ change ∈ changesOf tables m b e, change.beginHeight ≤ x → x ≤ change.endHeight →
        params change = valueAt m.entries (defaults tables) x := by
  have hpassed : ∀ a ∈ m.entries.takeWhile (fun a => decide (a.1 ≤ b)), a.1 ≤ x := by
    intro a ha
    have hab := List.mem_takeWhile_imp ha
    exact (of_decide_eq_true hab).trans hb
  have hrest : ∀ a ∈ m.entries.dropWhile (fun a => decide (a.1 ≤ b)), b < a.1 := fun a ha =>
    m.ascending.lt_of_mem_dropWhile ha
  have hasc : Ascending (m.entries.dropWhile fun a => decide (a.1 ≤ b)) :=
    List.Pairwise.sublist (List.dropWhile_sublist _) m.ascending
  have hvalue : valueAt m.entries (defaults tables) x =
      valueAt (m.entries.dropWhile fun a => decide (a.1 ≤ b))
        (((m.entries.takeWhile fun a => decide (a.1 ≤ b)).getLast?.map Prod.snd).getD (defaults tables)) x := by
    conv_lhs => rw [← List.takeWhile_append_dropWhile (p := fun a => decide (a.1 ≤ b)) (l := m.entries)]
    exact valueAt_append_of_le hpassed _ _
  have hchanges : ∀ first : IneryCdpInterestParams,
      ((m.entries.takeWhile fun a => decide (a.1 ≤ b)).getLast?.map Prod.snd).getD (defaults tables) = first →
        changesOf tables m b e = addChanges e ⟨b, 0, first.paramA, first.paramB⟩
          (m.entries.dropWhile fun a => decide (a.1 ≤ b)) := by
    rintro _ rfl
    unfold changesOf
    dsimp only
    cases (m.entries.takeWhile fun a => decide (a.1 ≤ b)).getLast? <;> rfl
  rw [hvalue, hchanges _ rfl]
  exact mem_addChanges hx _ hb hrest hasc

end InterestParams

/-! ## Changes -/

/-- `CDP_INTEREST_PARAM_A` and `CDP_INTEREST_PARAM_B`. -/
inductive InterestParam
  | a | b
deriving DecidableEq

namespace InterestParam

/-- The other parameter. -/
def other : InterestParam → InterestParam
  | a => b
  | b => a

/-- The type of the parameter. -/
def type (tables : SysParamTables) : InterestParam → Byte
  | a => tables.cdpInterestParamA
  | b => tables.cdpInterestParamB

/-- The default of the parameter. -/
def dflt (tables : SysParamTables) (p : InterestParam) : UInt64 := tables.getCdpParamDefaultValue (p.type tables)

/-- Both parameters, from the value of one and that of the other. -/
def item : InterestParam → UInt64 → UInt64 → IneryCdpInterestParams
  | a, value, other => ⟨value, other⟩
  | b, value, other => ⟨other, value⟩

/-- The value of a parameter. -/
def get : InterestParam → IneryCdpInterestParams → UInt64
  | a, params => params.paramA
  | b, params => params.paramB

@[simp] theorem get_item_self (p : InterestParam) (value other : UInt64) :
    p.get (p.item value other) = value := by
  cases p <;> rfl

@[simp] theorem get_item_other (p : InterestParam) (value other : UInt64) :
    p.other.get (p.item value other) = other := by
  cases p <;> rfl

theorem eq_other_of_ne {p q : InterestParam} (h : q ≠ p) : q = p.other := by
  cases p <;> cases q <;> first | rfl | exact absurd rfl h

theorem other_ne (p : InterestParam) : p.other ≠ p := by
  cases p <;> nofun

end InterestParam

/-- A change of one parameter of a coin pair. -/
structure InterestChange where
  coinPair : IneryCdpCoinPair
  param : InterestParam
  height : ℤ
  value : UInt64

namespace InterestChange

/-- The value of the last change that passes a test. -/
def lastValue (q : InterestChange → Bool) (cs : List InterestChange) : Option UInt64 :=
  (cs.filter q).getLast?.map value

/-- The value that a parameter was last set to. -/
def lastSet (cs : List InterestChange) (coinPair : IneryCdpCoinPair) (p : InterestParam) : Option UInt64 :=
  lastValue (fun c => c.coinPair = coinPair ∧ c.param = p) cs

/-- The value of the last change of a parameter up to a height. -/
def lastAt (cs : List InterestChange) (coinPair : IneryCdpCoinPair) (p : InterestParam) (x : ℤ) :
    Option UInt64 :=
  lastValue (fun c => c.coinPair = coinPair ∧ c.param = p ∧ c.height ≤ x) cs

theorem lastValue_append_single (q : InterestChange → Bool) (cs : List InterestChange) (c : InterestChange) :
    lastValue q (cs ++ [c]) = if q c then some c.value else lastValue q cs := by
  unfold lastValue
  rw [List.filter_append]
  cases hq : q c with
  | true => simp [hq]
  | false => simp [hq]

theorem lastAt_eq_lastSet {cs : List InterestChange} {x : ℤ} (h : ∀ c ∈ cs, c.height ≤ x)
    (coinPair : IneryCdpCoinPair) (p : InterestParam) : lastAt cs coinPair p x = lastSet cs coinPair p := by
  unfold lastAt lastSet lastValue
  refine congrArg (fun l => (List.getLast? l).map value) (List.filter_congr fun c hc => ?_)
  simp [h c hc]

end InterestChange

open InterestChange

/-- What `GetCdpParam` returns after a parameter was last set to `o`. -/
def storedParam (o : Option UInt64) (dflt : UInt64) : UInt64 :=
  ((live (o.map IneryVarIntValue.mk)).map IneryVarIntValue.value).getD dflt

theorem storedParam_eq_iff (o : Option UInt64) (dflt : UInt64) :
    storedParam o dflt = o.getD dflt ↔ (o = some 0 → dflt = 0) := by
  cases o with
  | none => exact iff_of_true rfl nofun
  | some v =>
    by_cases hv : v = 0
    · subst hv
      rw [storedParam, Option.map_some, live_of_isEmpty (show isEmpty (⟨0⟩ : IneryVarIntValue) = true from rfl)]
      simp
    · have hne : isEmpty (⟨v⟩ : IneryVarIntValue) = false := beq_false_of_ne hv
      rw [storedParam, Option.map_some, live_of_not_isEmpty hne]
      exact iff_of_true rfl fun h => absurd (Option.some.inj h) hv

/-- No change meets an other parameter that was last set to zero while its default is not zero. -/
def Restorable (tables : SysParamTables) (cs : List InterestChange) : Prop :=
  ∀ pre c post, cs = pre ++ c :: post → lastSet pre c.coinPair c.param.other = some 0 →
    c.param.other.dflt tables = 0

theorem Restorable.of_append {tables : SysParamTables} {cs cs' : List InterestChange}
    (h : Restorable tables (cs ++ cs')) : Restorable tables cs := fun pre c post heq =>
  h pre c (post ++ cs') (by rw [heq, List.append_assoc, List.cons_append])

/-! ## What a change records -/

namespace InterestParams

section Steps

variable [CompactSize] [DbUtil IneryCdpCoinPair] [Serial IneryVarIntValue]
  [Serial IneryCdpInterestParamChangeMap] (tables : SysParamTables) (acc : CDBAccess)

/-- One change: `SetCdpParam`, then `SetCdpInterestParam`. -/
def step (st : InterestParams) (c : InterestChange) : Option InterestParams :=
  let r := setCdpParam acc st.pDbOpLogMap st.cdpParamCache c.coinPair (c.param.type tables) c.value
  let st := { st with cdpParamCache := r.1, pDbOpLogMap := r.2.2 }
  (st.setCdpInterestParam tables acc c.coinPair (c.param.type tables) c.height c.value).map Prod.snd

/-- Every cache has at least the level it was built with. -/
def Built (st : InterestParams) : Prop := st.cdpParamCache ≠ [] ∧ st.cdpInterestParamChangesCache ≠ []

/-- The stored value of a parameter. -/
def paramView (st : InterestParams) : CdpParamKey → Option IneryVarIntValue :=
  CacheStack.view acc .cdpParam st.cdpParamCache

/-- The history of a coin pair. -/
def historyOf (st : InterestParams) (coinPair : IneryCdpCoinPair) : IneryCdpInterestParamChangeMap :=
  if isEmpty coinPair then ∅
  else (CacheStack.view acc .cdpInterestParams st.cdpInterestParamChangesCache coinPair).getD ∅

omit [Serial IneryVarIntValue] in
theorem changeMap_spec {st : InterestParams} (hst : st.Built) (coinPair : IneryCdpCoinPair) :
    ∃ s, st.changeMap acc coinPair =
        (st.historyOf acc coinPair, { st with cdpInterestParamChangesCache := s }) ∧ s ≠ [] ∧
      CacheStack.view acc .cdpInterestParams s =
        CacheStack.view acc .cdpInterestParams st.cdpInterestParamChangesCache := by
  unfold changeMap historyOf
  cases hpair : isEmpty coinPair with
  | true =>
    refine ⟨st.cdpInterestParamChangesCache, ?_, hst.2, rfl⟩
    rw [CacheStack.getData, if_pos hpair]
    rfl
  | false =>
    obtain ⟨s, heq, hne, hview⟩ := CacheStack.getData_spec acc .cdpInterestParams hpair hst.2
    exact ⟨s, by rw [heq]; rfl, hne, hview⟩

omit [Serial IneryVarIntValue] in
theorem getCdpInterestParamChanges_eq {st : InterestParams} (hst : st.Built) (coinPair : IneryCdpCoinPair)
    (b e : ℤ) : (st.getCdpInterestParamChanges tables acc coinPair b e).1 =
      changesOf tables (st.historyOf acc coinPair) b e := by
  obtain ⟨s, heq, -⟩ := changeMap_spec acc hst coinPair
  rw [getCdpInterestParamChanges, heq]

variable {tables} {p : InterestParam} {coinPair : IneryCdpCoinPair} (hpair : isEmpty coinPair = false)

include hpair

omit [Serial IneryCdpInterestParamChangeMap] in
theorem getCdpParam_spec (htable : tables.kCdpParamTable (p.type tables) = some (p.dflt tables))
    {s : CacheStack CdpParamKey IneryVarIntValue} (hs : s ≠ []) :
    ∃ s', getCdpParam tables acc s coinPair (p.type tables) =
        (some (((CacheStack.view acc .cdpParam s (toLex (coinPair, p.type tables))).map
          IneryVarIntValue.value).getD (p.dflt tables)), s') ∧ s' ≠ [] ∧
      CacheStack.view acc .cdpParam s' = CacheStack.view acc .cdpParam s := by
  have hkey : isEmpty (toLex (coinPair, p.type tables) : CdpParamKey) = false := by
    rw [isEmpty_toLex, hpair, Bool.false_and]
  obtain ⟨s', heq, hne, hview⟩ := CacheStack.getData_spec acc .cdpParam hkey hs
  refine ⟨s', ?_, hne, hview⟩
  rw [getCdpParam, htable]
  dsimp only
  rw [heq]
  cases CacheStack.view acc .cdpParam s (toLex (coinPair, p.type tables)) <;> rfl

omit hpair [DbUtil IneryCdpCoinPair] [CompactSize] [Serial IneryVarIntValue]
  [Serial IneryCdpInterestParamChangeMap] in
theorem isEmpty_insert (m : IneryCdpInterestParamChangeMap) (height : ℤ) (params : IneryCdpInterestParams) :
    isEmpty (m.insert height params) = false := by
  refine List.isEmpty_eq_false_iff.mpr fun hnil => ?_
  have hfind := SortedMap.find?_insert_self m height params
  rw [SortedMap.eq_empty_of_entries hnil] at hfind
  cases hfind

/-- `SetCdpInterestParam` records both parameters, the other one as it is stored. -/
theorem setCdpInterestParam_spec (htypes : tables.cdpInterestParamA ≠ tables.cdpInterestParamB)
    (htable : tables.kCdpParamTable (p.other.type tables) = some (p.other.dflt tables))
    {st : InterestParams} (hst : st.Built) (height : ℤ) (value : UInt64) :
    ∃ st', st.setCdpInterestParam tables acc coinPair (p.type tables) height value = some (true, st') ∧
      st'.Built ∧ st'.paramView acc = st.paramView acc ∧
      CacheStack.view acc .cdpInterestParams st'.cdpInterestParamChangesCache =
        Function.update (CacheStack.view acc .cdpInterestParams st.cdpInterestParamChangesCache) coinPair
          (some ((st.historyOf acc coinPair).insert height (p.item value
            (((st.paramView acc (toLex (coinPair, p.other.type tables))).map IneryVarIntValue.value).getD
              (p.other.dflt tables))))) := by
  obtain ⟨s, hmap, hs, hview⟩ := changeMap_spec acc hst coinPair
  obtain ⟨s₁, hget, hs₁, hview₁⟩ := getCdpParam_spec acc (p := p.other) hpair htable hst.1
  obtain ⟨s₂, log, hset, hs₂, hview₂⟩ := CacheStack.setData_spec acc .cdpInterestParams hpair st.pDbOpLogMap hs
    ((st.historyOf acc coinPair).insert height (p.item value
      (((st.paramView acc (toLex (coinPair, p.other.type tables))).map IneryVarIntValue.value).getD
        (p.other.dflt tables))))
  rw [live_of_not_isEmpty (isEmpty_insert _ _ _), hview] at hview₂
  refine ⟨⟨s₁, s₂, log⟩, ?_, ⟨hs₁, hs₂⟩, hview₁, hview₂⟩
  unfold setCdpInterestParam
  rw [hmap]
  cases p with
  | a =>
    rw [if_pos (show InterestParam.a.type tables = tables.cdpInterestParamA from rfl),
      show tables.cdpInterestParamB = InterestParam.a.other.type tables from rfl, hget]
    exact congrArg (fun r : CacheStack IneryCdpCoinPair IneryCdpInterestParamChangeMap × Bool ×
      Option CDBOpLogMap => some (r.2.1, (⟨s₁, r.1, r.2.2⟩ : InterestParams))) hset
  | b =>
    rw [if_neg (show InterestParam.b.type tables ≠ tables.cdpInterestParamA from htypes.symm),
      if_pos (show InterestParam.b.type tables = tables.cdpInterestParamB from rfl),
      show tables.cdpInterestParamA = InterestParam.b.other.type tables from rfl, hget]
    exact congrArg (fun r : CacheStack IneryCdpCoinPair IneryCdpInterestParamChangeMap × Bool ×
      Option CDBOpLogMap => some (r.2.1, (⟨s₁, r.1, r.2.2⟩ : InterestParams))) hset

end Steps

/-! ## Runs -/

/-- The two types differ, and each has an entry with its default in the table. -/
structure TablesAgree (tables : SysParamTables) : Prop where
  types : tables.cdpInterestParamA ≠ tables.cdpInterestParamB
  table : ∀ p : InterestParam, tables.kCdpParamTable (p.type tables) = some (p.dflt tables)

theorem TablesAgree.type_ne {tables : SysParamTables} (h : TablesAgree tables) (p : InterestParam) :
    p.other.type tables ≠ p.type tables := by
  cases p with
  | a => exact h.types.symm
  | b => exact h.types

theorem TablesAgree.key_inj {tables : SysParamTables} (h : TablesAgree tables)
    {coinPair coinPair' : IneryCdpCoinPair} {p p' : InterestParam}
    (heq : (toLex (coinPair, p.type tables) : CdpParamKey) = toLex (coinPair', p'.type tables)) :
    coinPair = coinPair' ∧ p = p' := by
  obtain ⟨hc, ht⟩ := Prod.mk.inj (toLex.injective heq)
  refine ⟨hc, ?_⟩
  by_contra hne
  rw [InterestParam.eq_other_of_ne hne] at ht
  exact h.type_ne p' ht

theorem get_item_append {tables : SysParamTables} {cs : List InterestChange} {c : InterestChange}
    (hrest : Restorable tables (cs ++ [c])) (hheight : ∀ c' ∈ cs, c'.height ≤ c.height) {p : InterestParam}
    {x : ℤ} {item : IneryCdpInterestParams}
    (hitem : p.get item = (lastAt cs c.coinPair p x).getD (p.dflt tables)) :
    p.get (if c.height ≤ x then c.param.item c.value
      (storedParam (lastSet cs c.coinPair c.param.other) (c.param.other.dflt tables)) else item) =
        (lastAt (cs ++ [c]) c.coinPair p x).getD (p.dflt tables) := by
  rw [lastAt, lastValue_append_single]
  by_cases hx : c.height ≤ x
  · rw [if_pos hx]
    by_cases hp : c.param = p
    · subst hp
      rw [if_pos (decide_eq_true ⟨rfl, rfl, hx⟩), InterestParam.get_item_self]
      rfl
    · -- the other parameter keeps its last value
      obtain rfl := InterestParam.eq_other_of_ne (Ne.symm hp)
      rw [if_neg fun hq => hp (of_decide_eq_true hq).2.1, InterestParam.get_item_other,
        (storedParam_eq_iff _ _).mpr (hrest cs c [] rfl)]
      exact congrArg (fun o => Option.getD o _)
        (lastAt_eq_lastSet (fun c' hc' => (hheight c' hc').trans hx) _ _).symm
  · rw [if_neg hx, if_neg fun hq => hx (of_decide_eq_true hq).2.2]
    exact hitem

theorem get_defaults (tables : SysParamTables) (p : InterestParam) :
    p.get (defaults tables) = p.dflt tables := by
  cases p <;> rfl

section Runs

variable [CompactSize] [DbUtil IneryCdpCoinPair] [Serial IneryVarIntValue]
  [Serial IneryCdpInterestParamChangeMap] {tables : SysParamTables} (acc : CDBAccess)

/-- **One change** sets its parameter, and records both of them at its height. -/
theorem step_spec (htables : TablesAgree tables) {st : InterestParams} (hst : st.Built) {c : InterestChange}
    (hpair : isEmpty c.coinPair = false) : ∃ st', st.step tables acc c = some st' ∧ st'.Built ∧
      st'.paramView acc = Function.update (st.paramView acc) (toLex (c.coinPair, c.param.type tables))
        (live (some ⟨c.value⟩)) ∧
      ∀ coinPair, st'.historyOf acc coinPair = if coinPair = c.coinPair then
        (st.historyOf acc coinPair).insert c.height (c.param.item c.value
          (((st.paramView acc (toLex (coinPair, c.param.other.type tables))).map
            IneryVarIntValue.value).getD (c.param.other.dflt tables)))
        else st.historyOf acc coinPair := by
  have hkey : isEmpty (toLex (c.coinPair, c.param.type tables) : CdpParamKey) = false := by
    rw [isEmpty_toLex, hpair, Bool.false_and]
  have hne : (toLex (c.coinPair, c.param.other.type tables) : CdpParamKey) ≠
      toLex (c.coinPair, c.param.type tables) := fun heq =>
    htables.type_ne c.param (Prod.mk.inj (toLex.injective heq)).2
  obtain ⟨s, log, hset, hs, hview⟩ := CacheStack.setData_spec acc .cdpParam hkey st.pDbOpLogMap hst.1
    (⟨c.value⟩ : IneryVarIntValue)
  have hst₁ : (⟨s, st.cdpInterestParamChangesCache, log⟩ : InterestParams).Built := ⟨hs, hst.2⟩
  obtain ⟨st', hrec, hst', hparams, hhist⟩ := setCdpInterestParam_spec acc hpair htables.types
    (htables.table c.param.other) hst₁ c.height c.value
  refine ⟨st', ?_, hst', hparams.trans hview, fun coinPair => ?_⟩
  · rw [step]
    dsimp only [setCdpParam]
    rw [hset]
    dsimp only
    rw [hrec]
    rfl
  · rw [historyOf, hhist]
    split_ifs with hempty heq heq
    · rw [heq, hpair] at hempty
      cases hempty
    · rw [historyOf, if_pos hempty]
    · subst heq
      rw [Function.update_self, Option.getD_some]
      have hother := congrFun hview (toLex (c.coinPair, c.param.other.type tables))
      rw [Function.update_of_ne hne] at hother
      unfold paramView
      dsimp only
      rw [hother]
      rfl
    · rw [Function.update_of_ne heq, historyOf, if_neg hempty]

/-- What the caches hold after a sequence of changes. -/
structure Recorded (tables : SysParamTables) (cs : List InterestChange) (st : InterestParams) : Prop where
  built : st.Built
  params : ∀ coinPair p, isEmpty coinPair = false → st.paramView acc (toLex (coinPair, p.type tables)) =
    live ((lastSet cs coinPair p).map IneryVarIntValue.mk)
  heights : ∀ coinPair, ∀ e ∈ (st.historyOf acc coinPair).entries, ∃ c ∈ cs, e.1 = c.height
  last : ∀ pre c, cs = pre ++ [c] →
    valueAt (st.historyOf acc c.coinPair).entries (defaults tables) c.height = c.param.item c.value
      (storedParam (lastSet pre c.coinPair c.param.other) (c.param.other.dflt tables))
  values : Restorable tables cs → ∀ coinPair (p : InterestParam) x,
    p.get (valueAt (st.historyOf acc coinPair).entries (defaults tables) x) =
      (lastAt cs coinPair p x).getD (p.dflt tables)

theorem Recorded.append (htables : TablesAgree tables) {cs : List InterestChange} {st : InterestParams}
    (h : Recorded acc tables cs st) {c : InterestChange} (hpair : isEmpty c.coinPair = false)
    (hheight : ∀ c' ∈ cs, c'.height ≤ c.height) :
    ∃ st', st.step tables acc c = some st' ∧ Recorded acc tables (cs ++ [c]) st' := by
  obtain ⟨st', hstep, hst', hparams, hhist⟩ := step_spec acc htables h.built hpair
  have hstored : ((st.paramView acc (toLex (c.coinPair, c.param.other.type tables))).map
      IneryVarIntValue.value).getD (c.param.other.dflt tables) =
        storedParam (lastSet cs c.coinPair c.param.other) (c.param.other.dflt tables) := by
    rw [h.params _ _ hpair]
    rfl
  have hle : ∀ e ∈ (st.historyOf acc c.coinPair).entries, e.1 ≤ c.height := by
    intro e he
    obtain ⟨c', hc', heq⟩ := h.heights _ e he
    rw [heq]
    exact hheight c' hc'
  have hvalue : ∀ x, valueAt (st'.historyOf acc c.coinPair).entries (defaults tables) x =
      if c.height ≤ x then c.param.item c.value
        (storedParam (lastSet cs c.coinPair c.param.other) (c.param.other.dflt tables))
      else valueAt (st.historyOf acc c.coinPair).entries (defaults tables) x := by
    intro x
    rw [hhist, if_pos rfl, hstored, valueAt_insert hle]
  refine ⟨st', hstep, hst', fun coinPair p hp => ?_, fun coinPair e he => ?_, fun pre c' heq => ?_,
    fun hrest coinPair p x => ?_⟩
  · rw [hparams, lastSet, lastValue_append_single]
    by_cases hkey : c.coinPair = coinPair ∧ c.param = p
    · obtain ⟨rfl, rfl⟩ := hkey
      rw [Function.update_self, if_pos (decide_eq_true ⟨rfl, rfl⟩)]
      rfl
    · rw [if_neg fun hq => hkey (of_decide_eq_true hq), Function.update_of_ne, h.params coinPair p hp]
      · rfl
      · intro heq
        obtain ⟨hc, hp⟩ := htables.key_inj heq
        exact hkey ⟨hc.symm, hp.symm⟩
  · rw [hhist] at he
    split_ifs at he
    · rcases SortedMap.mem_insertEntry he with rfl | he
      · exact ⟨c, List.mem_append_right _ (List.mem_singleton_self c), rfl⟩
      · obtain ⟨c', hc', heq⟩ := h.heights _ e he
        exact ⟨c', List.mem_append_left _ hc', heq⟩
    · obtain ⟨c', hc', heq⟩ := h.heights _ e he
      exact ⟨c', List.mem_append_left _ hc', heq⟩
  · obtain ⟨rfl, hc⟩ := List.append_inj' heq rfl
    obtain rfl := List.singleton_inj.mp hc
    rw [hvalue, if_pos le_rfl]
  · have hold := h.values hrest.of_append
    by_cases hc : c.coinPair = coinPair
    · subst hc
      rw [hvalue]
      exact get_item_append hrest hheight (hold _ _ _)
    · rw [hhist, if_neg (Ne.symm hc), lastAt, lastValue_append_single,
        if_neg fun hq => hc (of_decide_eq_true hq).1]
      exact hold _ _ _

/-- **After every sequence of changes** at heights that do not fall. -/
theorem run_recorded (htables : TablesAgree tables) {st : InterestParams} (hst : st.Built)
    (hparams : ∀ key, st.paramView acc key = none) (hhist : ∀ coinPair, st.historyOf acc coinPair = ∅)
    {cs : List InterestChange} (hpairs : ∀ c ∈ cs, isEmpty c.coinPair = false)
    (hsorted : cs.Pairwise fun c c' => c.height ≤ c'.height) :
    ∃ st', run (step tables acc) st cs = some st' ∧ Recorded acc tables cs st' := by
  induction cs using List.reverseRecOn with
  | nil =>
    refine ⟨st, rfl, hst, fun coinPair p _ => (hparams _).trans rfl, fun coinPair e he => ?_,
      fun pre c heq => ?_, fun _ coinPair p x => ?_⟩
    · rw [hhist] at he
      cases he
    · simp at heq
    · rw [hhist]
      exact get_defaults tables p
  | append_singleton cs c ih =>
    obtain ⟨hcs, -, hle⟩ := List.pairwise_append.mp hsorted
    obtain ⟨st₁, hrun, hrec⟩ := ih (fun c' hc' => hpairs c' (List.mem_append_left _ hc')) hcs
    obtain ⟨st', hstep, hrec'⟩ := hrec.append acc htables
      (hpairs c (List.mem_append_right _ (List.mem_singleton_self c)))
      fun c' hc' => hle c' hc' c (List.mem_singleton_self c)
    refine ⟨st', ?_, hrec'⟩
    rw [run_append, hrun]
    exact (congrArg (fun o => Option.bind o fun s => run (step tables acc) s []) hstep).trans rfl

/-- The intervals of every query cover its heights, and each of them has the values that were set. -/
def Reports (tables : SysParamTables) (cs : List InterestChange) (st : InterestParams) : Prop :=
  ∀ coinPair b e x, b ≤ x → x ≤ e →
    let changes := (st.getCdpInterestParamChanges tables acc coinPair b e).1
    (∃ change ∈ changes, change.beginHeight ≤ x ∧ x ≤ change.endHeight) ∧
      ∀ change ∈ changes, change.beginHeight ≤ x → x ≤ change.endHeight →
        change.paramA = (lastAt cs coinPair .a x).getD (InterestParam.a.dflt tables) ∧
          change.paramB = (lastAt cs coinPair .b x).getD (InterestParam.b.dflt tables)

omit [Serial IneryVarIntValue] in
theorem reports_iff {st : InterestParams} (hst : st.Built) (cs : List InterestChange) :
    Reports acc tables cs st ↔ ∀ coinPair (p : InterestParam) x,
      p.get (valueAt (st.historyOf acc coinPair).entries (defaults tables) x) =
        (lastAt cs coinPair p x).getD (p.dflt tables) := by
  have hchanges := fun coinPair b e => getCdpInterestParamChanges_eq tables acc hst coinPair b e
  constructor
  · intro h coinPair p x
    obtain ⟨⟨change, hmem, hbegin, hend⟩, hall⟩ := h coinPair x x x le_rfl le_rfl
    obtain ⟨ha, hb⟩ := hall change hmem hbegin hend
    rw [hchanges] at hmem
    rw [← (changesOf_spec tables _ le_rfl le_rfl).2 change hmem hbegin hend]
    cases p with
    | a => exact ha
    | b => exact hb
  · intro h coinPair b e x hb hx
    dsimp only
    rw [hchanges]
    obtain ⟨hcover, hall⟩ := changesOf_spec tables (st.historyOf acc coinPair) hb hx
    refine ⟨hcover, fun change hmem hbegin hend => ?_⟩
    have hvalue := hall change hmem hbegin hend
    rw [← h coinPair .a x, ← h coinPair .b x, ← hvalue]
    exact ⟨rfl, rfl⟩

/-- **The history reports what was set**, after every change of a sequence, exactly when no change meets an
other parameter that was last set to zero and has another default. -/
theorem interest_history (htables : TablesAgree tables) {st : InterestParams} (hst : st.Built)
    (hparams : ∀ key, st.paramView acc key = none) (hhist : ∀ coinPair, st.historyOf acc coinPair = ∅)
    {cs : List InterestChange} (hpairs : ∀ c ∈ cs, isEmpty c.coinPair = false)
    (hsorted : cs.Pairwise fun c c' => c.height ≤ c'.height) :
    (∀ pre, pre <+: cs → ∃ st', run (step tables acc) st pre = some st' ∧ Reports acc tables pre st') ↔
      Restorable tables cs := by
  have hrun : ∀ pre, pre <+: cs → ∃ st', run (step tables acc) st pre = some st' ∧
      Recorded acc tables pre st' := fun pre hpre =>
    run_recorded acc htables hst hparams hhist (fun c hc => hpairs c (hpre.subset hc))
      (List.Pairwise.sublist hpre.sublist hsorted)
  constructor
  · rintro h pre c post rfl hzero
    have hpre : pre ++ [c] <+: pre ++ c :: post := ⟨post, by rw [List.append_assoc, List.singleton_append]⟩
    obtain ⟨st', hst', hrep⟩ := h _ hpre
    obtain ⟨st'', hst'', hrec⟩ := hrun _ hpre
    obtain rfl := Option.some.inj (hst'.symm.trans hst'')
    have hvalue := (reports_iff acc hrec.built _).mp hrep c.coinPair c.param.other c.height
    have hle : ∀ c' ∈ pre, c'.height ≤ c.height := fun c' hc' =>
      (List.pairwise_append.mp hsorted).2.2 c' hc' c List.mem_cons_self
    rw [hrec.last pre c rfl, InterestParam.get_item_other, lastAt, lastValue_append_single,
      if_neg fun hq => InterestParam.other_ne c.param (of_decide_eq_true hq).2.1.symm] at hvalue
    have hlast := lastAt_eq_lastSet hle c.coinPair c.param.other
    rw [lastAt] at hlast
    rw [hlast] at hvalue
    exact (storedParam_eq_iff _ _).mp hvalue hzero
  · rintro hrest pre ⟨post, rfl⟩
    obtain ⟨st', hst', hrec⟩ := hrun pre (List.prefix_append pre post)
    exact ⟨st', hst', (reports_iff acc hrec.built pre).mpr (hrec.values hrest.of_append)⟩

end Runs

end InterestParams

/-! ## A zero of the other parameter -/

namespace BigEndianKeys

/-- The parameters of a change map, behind their number. -/
def readChanges : ℕ → Bytes → Option (IneryCdpInterestParamChangeMap × Bytes)
  | 0, bytes => some (∅, bytes)
  | n + 1, bytes =>
    (readDigits 4 bytes).bind fun height => (readDigits 8 height.2).bind fun paramA =>
      (readDigits 8 paramA.2).bind fun paramB => (readChanges n paramB.2).map fun rest =>
        (rest.1.insert (Int32.ofBitVec (BitVec.ofNat 32 height.1)).toInt
          ⟨UInt64.ofNat paramA.1, UInt64.ofNat paramB.1⟩, rest.2)

scoped instance : Serial IneryCdpInterestParamChangeMap where
  ser m := bigEndian 4 m.entries.length ++ m.entries.flatMap fun e =>
    bigEndian 4 (Int32.ofInt e.1).toBitVec.toNat ++ bigEndian 8 e.2.paramA.toNat ++
      bigEndian 8 e.2.paramB.toNat
  unser bytes := (readDigits 4 bytes).bind fun r => readChanges r.1 r.2

/-- Caches without a level below them, and nothing stored. -/
def noParams : InterestParams := ⟨[⟨∅, false, 0⟩], [⟨∅, false, 0⟩], none⟩

/-- The first parameter is set to 7, then the second to 9: both are reported. -/
theorem interest_history_two : ∃ st', run (InterestParams.step smallTables ⟨.sysparam, ∅⟩) noParams
    [⟨⟨[1], [2]⟩, .a, 1, 7⟩, ⟨⟨[1], [2]⟩, .b, 3, 9⟩] = some st' ∧
      InterestParams.Reports ⟨.sysparam, ∅⟩ smallTables
        [⟨⟨[1], [2]⟩, .a, 1, 7⟩, ⟨⟨[1], [2]⟩, .b, 3, 9⟩] st' := by
  refine (InterestParams.interest_history ⟨.sysparam, ∅⟩ ⟨by decide, fun p => by cases p <;> rfl⟩
    ⟨List.cons_ne_nil _ _, List.cons_ne_nil _ _⟩ (fun _ => rfl) (fun coinPair => ?_) ?_ ?_).mpr ?_
    _ List.prefix_rfl
  · unfold InterestParams.historyOf
    split_ifs <;> rfl
  · simp only [List.forall_mem_cons]
    exact ⟨by decide, by decide, nofun⟩
  · simp
  · intro pre c post heq hzero
    -- the second change follows a 7, the first one nothing
    rcases pre with _ | ⟨c₁, _ | ⟨c₂, pre⟩⟩
    · cases hzero
    · obtain ⟨hfirst, htail⟩ := List.cons.inj heq
      obtain ⟨rfl, -⟩ := List.cons.inj htail
      rw [← hfirst] at hzero
      exact absurd hzero (by decide)
    · have hlen := congrArg List.length heq
      simp at hlen

/-- The second parameter is set to 0, then the first to 7: the history reports the default of the second
parameter, which is 5. -/
theorem zero_not_reported : ∃ st', run (InterestParams.step smallTables ⟨.sysparam, ∅⟩) noParams
    [⟨⟨[1], [2]⟩, .b, 1, 0⟩, ⟨⟨[1], [2]⟩, .a, 2, 7⟩] = some st' ∧
      (st'.getCdpInterestParamChanges smallTables ⟨.sysparam, ∅⟩ ⟨[1], [2]⟩ 1 2).1 =
        [⟨1, 1, 100, 0⟩, ⟨2, 2, 7, 5⟩] ∧
      ¬InterestParams.Reports ⟨.sysparam, ∅⟩ smallTables
        [⟨⟨[1], [2]⟩, .b, 1, 0⟩, ⟨⟨[1], [2]⟩, .a, 2, 7⟩] st' := by
  refine ⟨_, rfl, by decide +kernel, fun h => ?_⟩
  obtain ⟨-, hall⟩ := h ⟨[1], [2]⟩ 1 2 2 (by decide) le_rfl
  exact absurd (hall ⟨2, 2, 7, 5⟩ (by decide +kernel) le_rfl le_rfl).2 (by decide)

end BigEndianKeys

end Inery
