import IneryPersistence.Cache.Kept
import IneryPersistence.SysParam.Model

/-!
# Values that are read back

A value that is empty is stored as an absent one: zero and `false` are read back as defaults, or not at all.

* `writeFlag`, `readFlag`, `writeLastBlockFile`, `readLastBlockFile`: accessors of `IneryBlockDBCache`;
* `ReadBack`, `ReadBackSingle`: after every run that does not write, the getter delivers the value;
* `readBack_iff`, `readBackSingle_iff`: when what is live is delivered;
* **`read_back_unless_empty`**: for each of the accessors, exactly when.
-/

namespace Inery

open KV

instance : DbUtil Bool := ⟨false, fun v => !v, fun _ => false⟩

instance : LawfulDbUtil Bool := ⟨fun _ => rfl⟩

instance : DbUtil Int32 := ⟨0, fun v => v == 0, fun _ => 0⟩

instance : LawfulDbUtil Int32 := ⟨fun _ => rfl⟩

/-! ## Block flags -/

section Block

variable (acc : CDBAccess)

/-- `WriteFlag`. -/
def writeFlag [CompactSize] [Serial Bool] (log : Option CDBOpLogMap) (flagCache : CacheStack Bytes Bool)
    (name : Bytes) (fValue : Bool) : CacheStack Bytes Bool × Bool × Option CDBOpLogMap :=
  CacheStack.setData acc .flag log flagCache name fValue

/-- `ReadFlag`. -/
def readFlag [CompactSize] [Serial Bool] (flagCache : CacheStack Bytes Bool) (name : Bytes) :
    Option Bool × CacheStack Bytes Bool :=
  let r := CacheStack.getData acc .flag flagCache name
  (r.2, r.1)

/-- `WriteLastBlockFile`. -/
def writeLastBlockFile [Serial Int32] (log : Option CDBOpLogMap) (lastBlockFileCache : SimpleStack Int32)
    (nFile : Int32) : Option (SimpleStack Int32 × Option CDBOpLogMap) :=
  SimpleStack.setData acc .lastBlockfile log lastBlockFileCache nFile

/-- `ReadLastBlockFile`. -/
def readLastBlockFile [Serial Int32] (lastBlockFileCache : SimpleStack Int32) :
    Option (SimpleStack Int32 × Option Int32) :=
  SimpleStack.getData acc .lastBlockfile lastBlockFileCache

end Block

/-! ## Reading back -/

section Composite

variable {K V A : Type} [LinearOrder K] [Serial K] [DbUtil K] [Serial V] [DbUtil V]

/-- After the write of `k` and any run that does not write it, the getter delivers the value. -/
def ReadBack (p : PrefixType) (k : K) (st : CacheLevels K V) (get : CDBAccess → CacheStack K V → Option A)
    (value : A) : Prop :=
  ∀ ops st', AllSteps (CacheLevels.step p) (CacheLevels.Leaves p k) st ops →
    run (CacheLevels.step p) st ops = some st' → get st'.acc st'.caches = some value

theorem readBack_iff [LawfulSerial K] [LawfulSerial V] [LawfulDbUtil V] {p : PrefixType} {k : K}
    (hk : isEmpty k = false) {st : CacheLevels K V} (hst : st.caches ≠ []) (v : V)
    {get : CDBAccess → CacheStack K V → Option A} (f : Option V → Option A)
    (hget : ∀ acc s, get acc s = f (CacheStack.getData acc p s k).2) (value : A) :
    ReadBack p k (st.write (CacheStack.setData st.acc p (st.log 0) st.caches k v)) get value ↔
      f (live (some v)) = some value := by
  constructor
  · intro h
    have hops : AllSteps (CacheLevels.step p) (CacheLevels.Leaves p k)
        (st.write (CacheStack.setData st.acc p (st.log 0) st.caches k v)) [] := trivial
    rw [← CacheLevels.getData_setData_run hk hst v hops rfl, ← hget]
    exact h [] _ hops rfl
  · intro h ops st' hops hrun
    rw [hget, CacheLevels.getData_setData_run hk hst v hops hrun, h]

end Composite

section Single

variable {V : Type} [Serial V] [DbUtil V]

/-- After the write and any run that does not write, the getter delivers the value. -/
def ReadBackSingle (p : PrefixType) (st : SingleLevels V)
    (get : CDBAccess → SimpleStack V → Option (SimpleStack V × Option V)) (value : V) : Prop :=
  ∀ ops st', AllSteps (SingleLevels.stepWithOthers p) (SingleLevels.Leaves p) st ops →
    run (SingleLevels.stepWithOthers p) st ops = some st' →
      ∃ s, get st'.acc st'.caches = some (s, some value)

theorem readBackSingle_iff [LawfulSerial V] [LawfulDbUtil V] {p : PrefixType} {st : SingleLevels V}
    (hst : SimpleStack.SingleStored V st.acc p) (hne : st.caches ≠ []) {v : V}
    {r : SimpleStack V × Option CDBOpLogMap}
    (hset : SimpleStack.setData st.acc p (st.log 0) st.caches v = some r) :
    ReadBackSingle p (st.write r) (fun acc s => SimpleStack.getData acc p s) v ↔ isEmpty v = false := by
  constructor
  · intro h
    have hops : AllSteps (SingleLevels.stepWithOthers p) (SingleLevels.Leaves p) (st.write r) [] := trivial
    obtain ⟨s, hs⟩ := h [] _ hops rfl
    obtain ⟨s', hs'⟩ := SingleLevels.getData_setSingle_run hst hne hset hops rfl
    rw [show SimpleStack.getData _ p _ = some (s, some v) from hs] at hs'
    exact (live_eq_some_iff.mp (Prod.mk.inj (Option.some.inj hs')).2.symm).2
  · intro h ops st' hops hrun
    obtain ⟨s, hs⟩ := SingleLevels.getData_setSingle_run hst hne hset hops hrun
    rw [live_of_not_isEmpty h] at hs
    exact ⟨s, hs⟩

end Single

/-! ## The accessors -/

section Accessors

/-- What `GetParam` and `GetCdpParam` make of a stored number: without one, the default. -/
def orDefault (dflt : UInt64) : Option IneryVarIntValue → Option UInt64
  | none => some dflt
  | some value => some value.value

theorem orDefault_live (dflt value : UInt64) :
    orDefault dflt (live (some ⟨value⟩)) = some value ↔ value ≠ 0 ∨ dflt = 0 := by
  by_cases hv : value = 0
  · subst hv
    rw [live_of_isEmpty (show isEmpty (⟨0⟩ : IneryVarIntValue) = true from rfl)]
    simp [orDefault]
  · rw [live_of_not_isEmpty (show isEmpty (⟨value⟩ : IneryVarIntValue) = false from beq_false_of_ne hv)]
    simp [orDefault, hv]

variable [CompactSize] [LawfulCompactSize] [DbUtil IneryCdpCoinPair] [Serial IneryVarIntValue]
  [LawfulSerial IneryVarIntValue] [Serial Bool] [LawfulSerial Bool] [Serial Int32] [LawfulSerial Int32]

/-- **What is stored is read back** through each of the four pairs of accessors, after any run that does
not write it, exactly when it is not empty or the default is the same. -/
theorem read_back_unless_empty (tables : SysParamTables) :
    (∀ (st : CacheLevels Byte IneryVarIntValue) (paramType : Byte) (dflt value : UInt64), st.caches ≠ [] →
      paramType ≠ 0 → tables.kSysParamTable paramType = some dflt →
        (ReadBack .sysParam paramType (st.write (setParam st.acc (st.log 0) st.caches paramType value))
          (fun acc s => (getParam tables acc s paramType).1) value ↔ value ≠ 0 ∨ dflt = 0)) ∧
    (∀ (st : CacheLevels CdpParamKey IneryVarIntValue) (coinPair : IneryCdpCoinPair) (paramType : Byte)
      (dflt value : UInt64), st.caches ≠ [] → paramType ≠ 0 →
        tables.kCdpParamTable paramType = some dflt →
          (ReadBack .cdpParam (toLex (coinPair, paramType))
            (st.write (setCdpParam st.acc (st.log 0) st.caches coinPair paramType value))
            (fun acc s => (getCdpParam tables acc s coinPair paramType).1) value ↔ value ≠ 0 ∨ dflt = 0)) ∧
    (∀ (st : CacheLevels Bytes Bool) (name : Bytes) (fValue : Bool), st.caches ≠ [] → name ≠ [] →
      (ReadBack .flag name (st.write (writeFlag st.acc (st.log 0) st.caches name fValue))
        (fun acc s => (readFlag acc s name).1) fValue ↔ fValue = true)) ∧
    ∀ (st : SingleLevels Int32) (nFile : Int32) (r : SimpleStack Int32 × Option CDBOpLogMap),
      SimpleStack.SingleStored Int32 st.acc .lastBlockfile → st.caches ≠ [] →
        writeLastBlockFile st.acc (st.log 0) st.caches nFile = some r →
          (ReadBackSingle .lastBlockfile (st.write r) (fun acc s => readLastBlockFile acc s) nFile ↔ nFile ≠ 0) := by
  refine ⟨fun st paramType dflt value hst htype hdflt => ?_,
    fun st coinPair paramType dflt value hst htype hdflt => ?_, fun st name fValue hst hname => ?_,
    fun st nFile r hacc hst hset => ?_⟩
  · rw [← orDefault_live]
    refine readBack_iff (beq_false_of_ne htype) hst ⟨value⟩ (orDefault dflt) (fun acc s => ?_) value
    rw [getParam, hdflt]
    dsimp only
    cases (CacheStack.getData acc .sysParam s paramType).2 <;> rfl
  · have hkey : isEmpty (toLex (coinPair, paramType) : CdpParamKey) = false := by
      rw [isEmpty_toLex, show isEmpty paramType = false from beq_false_of_ne htype, Bool.and_false]
    rw [← orDefault_live]
    refine readBack_iff hkey hst ⟨value⟩ (orDefault dflt) (fun acc s => ?_) value
    rw [getCdpParam, hdflt]
    dsimp only
    cases (CacheStack.getData acc .cdpParam s (toLex (coinPair, paramType))).2 <;> rfl
  · have hkey : isEmpty name = false := List.isEmpty_eq_false_iff.mpr hname
    refine (readBack_iff hkey hst fValue id (fun acc s => rfl) fValue).trans ?_
    cases fValue
    · exact iff_of_false nofun nofun
    · exact iff_of_true rfl rfl
  · refine (readBackSingle_iff hacc hst hset).trans ?_
    exact beq_eq_false_iff_ne

end Accessors

/-! ## Stored zeros -/

namespace BigEndianKeys

scoped instance : Serial IneryVarIntValue where
  ser v := bigEndian 8 v.value.toNat
  unser bytes := (readDigits 8 bytes).map fun r => (⟨UInt64.ofNat r.1⟩, r.2)

scoped instance : StreamSerial IneryVarIntValue where
  unser_append v rest := by
    have hread := readDigits_bigEndian (w := 8) v.value.toNat_lt rest
    simp only [ser, unser]
    rw [hread]
    simp

scoped instance : Serial Bool where
  ser v := [if v then 1 else 0]
  unser
    | [] => none
    | b :: rest => some (b == 1, rest)

scoped instance : StreamSerial Bool := ⟨fun v _ => by cases v <;> rfl⟩

scoped instance : Serial Int32 where
  ser v := bigEndian 4 v.toBitVec.toNat
  unser bytes := (readDigits 4 bytes).map fun r => (Int32.ofBitVec (BitVec.ofNat 32 r.1), r.2)

scoped instance : StreamSerial Int32 where
  unser_append v rest := by
    have hread := readDigits_bigEndian (w := 4) v.toBitVec.isLt rest
    simp only [ser, unser]
    rw [hread]
    simp

/-- Tables of two parameters. -/
def smallTables : SysParamTables where
  kSysParamTable paramType := if paramType = 1 then some 100 else none
  kCdpParamTable paramType := if paramType = 1 then some 100 else if paramType = 2 then some 5 else none
  cdpInterestParamA := 1
  cdpInterestParamB := 2
  getCdpParamDefaultValue paramType := if paramType = 1 then 100 else 5

/-- A parameter that was set to 7 is read back. -/
theorem read_back_run : ReadBack .sysParam (1 : Byte)
    (CacheLevels.write (⟨⟨.sysparam, ∅⟩, [⟨∅, false, 0⟩], fun _ => none⟩ : CacheLevels Byte IneryVarIntValue)
      (setParam ⟨.sysparam, ∅⟩ none [⟨∅, false, 0⟩] 1 7))
    (fun acc s => (getParam smallTables acc s 1).1) 7 :=
  ((read_back_unless_empty smallTables).1 _ 1 100 7 (List.cons_ne_nil _ _) (by decide) rfl).mpr
    (.inl (by decide))

/-- A flag that was written as `false` and the last block file 0 are not read, and a parameter that was set
to 0 has its default. -/
theorem zero_not_read_back :
    (readFlag ⟨.block, ∅⟩ (writeFlag ⟨.block, ∅⟩ none [⟨∅, false, 0⟩] (bytesOf "txindex") false).1
        (bytesOf "txindex")).1 = none ∧
      ((writeLastBlockFile ⟨.block, ∅⟩ none [⟨none⟩] 0).bind fun r =>
        (readLastBlockFile ⟨.block, ∅⟩ r.1).map Prod.snd) = some none ∧
      (getParam smallTables ⟨.sysparam, ∅⟩ (setParam ⟨.sysparam, ∅⟩ none [⟨∅, false, 0⟩] 1 0).1 1).1 =
        some 100 ∧
      (getCdpParam smallTables ⟨.sysparam, ∅⟩
        (setCdpParam ⟨.sysparam, ∅⟩ none [⟨∅, false, 0⟩] ⟨[1], [2]⟩ 2 0).1 ⟨[1], [2]⟩ 2).1 = some 5 := by
  decide +kernel

end BigEndianKeys

end Inery
