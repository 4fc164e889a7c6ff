import IneryPersistence.Cache.Refine
import IneryPersistence.Cdp.Keys

/-!
# The system parameters

`InerySysParamDBCache` keeps the parameters that governance has set. A parameter without a stored value has
its default; the history of the interest parameters of a coin pair is one map from heights to both of them.

* `IneryVarIntValue`, `SysParamTables`: the stored numbers, and the tables of the defaults;
* `setParam`, `getParam`, `setCdpParam`, `getCdpParam`: the parameters;
* `setCdpInterestParam`, `getCdpInterestParamChanges`: the history.
-/

namespace Inery

open KV

/-- A number that is empty when it is zero. -/
structure IneryVarIntValue where
  value : UInt64
deriving DecidableEq

instance : DbUtil IneryVarIntValue := ⟨⟨0⟩, fun v => v.value == 0, fun _ => ⟨0⟩⟩

instance : LawfulDbUtil IneryVarIntValue := ⟨fun _ => rfl⟩

/-- The defaults of the parameters, and the types of the two interest parameters. -/
structure SysParamTables where
  kSysParamTable : Byte → Option UInt64
  kCdpParamTable : Byte → Option UInt64
  cdpInterestParamA : Byte
  cdpInterestParamB : Byte
  getCdpParamDefaultValue : Byte → UInt64

/-- `IneryCdpInterestParams`. -/
structure IneryCdpInterestParams where
  paramA : UInt64
  paramB : UInt64
deriving DecidableEq

/-- `IneryCdpInterestParamChangeMap`: heights are numbers of 32 bits with a sign. -/
abbrev IneryCdpInterestParamChangeMap := SortedMap ℤ IneryCdpInterestParams

instance : DbUtil IneryCdpInterestParamChangeMap := ⟨∅, fun m => m.entries.isEmpty, fun _ => ∅⟩

instance : LawfulDbUtil IneryCdpInterestParamChangeMap := ⟨fun _ => rfl⟩

/-- `IneryCdpInterestParamChange`. -/
structure IneryCdpInterestParamChange where
  beginHeight : ℤ
  endHeight : ℤ
  paramA : UInt64
  paramB : UInt64
deriving DecidableEq

/-- Coin pair and parameter type: the key of `cdp_param_cache`. -/
abbrev CdpParamKey := IneryCdpCoinPair ×ₗ Byte

section Params

variable [CompactSize] [DbUtil IneryCdpCoinPair] [Serial IneryVarIntValue] (tables : SysParamTables)
  (acc : CDBAccess)

/-- `SetParam`. -/
def setParam (log : Option CDBOpLogMap) (sysParamCache : CacheStack Byte IneryVarIntValue) (key : Byte)
    (value : UInt64) : CacheStack Byte IneryVarIntValue × Bool × Option CDBOpLogMap :=
  CacheStack.setData acc .sysParam log sysParamCache key ⟨value⟩

/-- `GetParam`: without a stored value, the default of the table. -/
def getParam (sysParamCache : CacheStack Byte IneryVarIntValue) (paramType : Byte) :
    Option UInt64 × CacheStack Byte IneryVarIntValue :=
  match tables.kSysParamTable paramType with
  | none => (none, sysParamCache)
  | some dflt =>
    let r := CacheStack.getData acc .sysParam sysParamCache paramType
    match r.2 with
    | none => (some dflt, r.1)
    | some value => (some value.value, r.1)

/-- `SetCdpParam`. -/
def setCdpParam (log : Option CDBOpLogMap) (cdpParamCache : CacheStack CdpParamKey IneryVarIntValue)
    (coinPair : IneryCdpCoinPair) (paramkey : Byte) (value : UInt64) :
    CacheStack CdpParamKey IneryVarIntValue × Bool × Option CDBOpLogMap :=
  CacheStack.setData acc .cdpParam log cdpParamCache (toLex (coinPair, paramkey)) ⟨value⟩

/-- `GetCdpParam`: without a stored value, the default of the table. -/
def getCdpParam (cdpParamCache : CacheStack CdpParamKey IneryVarIntValue) (coinPair : IneryCdpCoinPair)
    (paramType : Byte) : Option UInt64 × CacheStack CdpParamKey IneryVarIntValue :=
  match tables.kCdpParamTable paramType with
  | none => (none, cdpParamCache)
  | some dflt =>
    let r := CacheStack.getData acc .cdpParam cdpParamCache (toLex (coinPair, paramType))
    match r.2 with
    | none => (some dflt, r.1)
    | some value => (some value.value, r.1)

end Params

/-! ## Interest -/

/-- The caches of an `InerySysParamDBCache` that the interest parameters are kept in, and the log. -/
structure InterestParams where
  cdpParamCache : CacheStack CdpParamKey IneryVarIntValue
  cdpInterestParamChangesCache : CacheStack IneryCdpCoinPair IneryCdpInterestParamChangeMap
  pDbOpLogMap : Option CDBOpLogMap

namespace InterestParams

variable [CompactSize] [DbUtil IneryCdpCoinPair] [Serial IneryVarIntValue]
  [Serial IneryCdpInterestParamChangeMap] (tables : SysParamTables) (acc : CDBAccess)

/-- The change map of a coin pair, which `GetData` leaves as it was made when there is none. -/
def changeMap (st : InterestParams) (coinPair : IneryCdpCoinPair) :
    IneryCdpInterestParamChangeMap × InterestParams :=
  let r := CacheStack.getData acc .cdpInterestParams st.cdpInterestParamChangesCache coinPair
  (r.2.getD ∅, { st with cdpInterestParamChangesCache := r.1 })

/-- `SetCdpInterestParam`: the other parameter is what `GetCdpParam` returns; `none` when the assertion on
the type of the parameter fails. -/
def setCdpInterestParam (st : InterestParams) (coinPair : IneryCdpCoinPair) (paramType : Byte) (height : ℤ)
    (value : UInt64) : Option (Bool × InterestParams) :=
  let m := st.changeMap acc coinPair
  let store (st : InterestParams) (item : IneryCdpInterestParams) : Bool × InterestParams :=
    let r := CacheStack.setData acc .cdpInterestParams st.pDbOpLogMap st.cdpInterestParamChangesCache coinPair
      (m.1.insert height item)
    (r.2.1, { st with cdpInterestParamChangesCache := r.1, pDbOpLogMap := r.2.2 })
  if paramType = tables.cdpInterestParamA then
    let r := getCdpParam tables acc m.2.cdpParamCache coinPair tables.cdpInterestParamB
    let st := { m.2 with cdpParamCache := r.2 }
    match r.1 with
    | none => some (false, st)
    | some paramB => some (store st ⟨value, paramB⟩)
  else if paramType = tables.cdpInterestParamB then
    let r := getCdpParam tables acc m.2.cdpParamCache coinPair tables.cdpInterestParamA
    let st := { m.2 with cdpParamCache := r.2 }
    match r.1 with
    | none => some (false, st)
    | some paramA => some (store st ⟨paramA, value⟩)
  else none

/-- The second loop of `GetCdpInterestParamChanges`: `back` is the change that has no end yet. -/
def addChanges (endHeight : ℤ) (back : IneryCdpInterestParamChange) :
    List (ℤ × IneryCdpInterestParams) → List IneryCdpInterestParamChange
  | [] => [{ back with endHeight := endHeight }]
  | (height, item) :: rest =>
    if height > endHeight then [{ back with endHeight := endHeight }]
    else { back with endHeight := height - 1 } ::
      addChanges endHeight ⟨height, 0, item.paramA, item.paramB⟩ rest

/-- `GetCdpInterestParamChanges` of a change map. -/
def changesOf (changeMap : IneryCdpInterestParamChangeMap) (beginHeight endHeight : ℤ) :
    List IneryCdpInterestParamChange :=
  let passed := changeMap.entries.takeWhile fun e => e.1 ≤ beginHeight
  let rest := changeMap.entries.dropWhile fun e => e.1 ≤ beginHeight
  match passed.getLast? with
  | none => addChanges endHeight ⟨beginHeight, 0, tables.getCdpParamDefaultValue tables.cdpInterestParamA,
      tables.getCdpParamDefaultValue tables.cdpInterestParamB⟩ rest
  | some (_, item) => addChanges endHeight ⟨beginHeight, 0, item.paramA, item.paramB⟩ rest

/-- `GetCdpInterestParamChanges`. -/
def getCdpInterestParamChanges (st : InterestParams) (coinPair : IneryCdpCoinPair)
    (beginHeight endHeight : ℤ) : List IneryCdpInterestParamChange × InterestParams :=
  let m := st.changeMap acc coinPair
  (changesOf tables m.1 beginHeight endHeight, m.2)

end InterestParams

end Inery
