import IneryPersistence.Cache.Composite

/-!
# The iterators of a cache

The iterator over a stack of caches merges, level by level, an iterator over the entries of a cache
with the iterator of its base, the lowest one walking the records of the database.

* `CDBBaseIterator`: the virtual functions of an iterator and the state they act on;
* `CDBAccessIterator`, `CCacheMapIterator`, `CDBCacheIteratorImpl`: the three implementations;
* `create`: the iterator of a stack; `Start`, `begin`, `visited`: a walk from a start position.
-/

namespace Inery

open KV

/-- The virtual functions of a `CDBBaseIterator`; `none` when one throws or an assertion stops the
program. `cur` is the current key and value while the iterator is valid. `remaining` is not in the
source: it bounds the positions that are left, as fuel for the loops over them. -/
structure CDBBaseIterator (K V : Type) where
  State : Type
  init : State
  first : State → Option State
  seek : Option K → State → Option State
  seekUpper : Option K → State → Option State
  next : State → Option State
  cur : State → Option (K × V)
  remaining : State → ℕ

/-- A `CDBAccessIterator`: the records from the position of the LevelDB iterator on, and the current
key and value while it is valid. -/
structure CDBAccessIterator (K V : Type) where
  pDbIt : List (Bytes × Bytes)
  cur : Option (K × V)

namespace CDBAccessIterator

variable {K V : Type} [Serial K] [DbUtil K] [Serial V] (acc : CDBAccess) (p : PrefixType)

/-- `ProcessData` at the position `pDbIt`. -/
def processData (pDbIt : List (Bytes × Bytes)) : Option (CDBAccessIterator K V) :=
  match pDbIt with
  | [] => some ⟨[], none⟩
  | (slKey, slValue) :: _ =>
    if !(getKeyPrefix p).isPrefixOf slKey then some ⟨pDbIt, none⟩
    else
      match parseDbKey (K := K) slKey p with
      | some (some key) => (unser slValue).map fun value => ⟨pDbIt, some (key, value.1)⟩
      | _ => none

/-- `First`. -/
def first : Option (CDBAccessIterator K V) := processData p (acc.db.lowerBound (getKeyPrefix p))

/-- `Seek`. -/
def seek (pKey : Option K) : Option (CDBAccessIterator K V) :=
  match pKey with
  | none => first acc p
  | some key =>
    if isEmpty key then first acc p else processData p (acc.db.lowerBound (genDbKey p key))

/-- `SeekUpper`. -/
def seekUpper (pKey : Option K) : Option (CDBAccessIterator K V) :=
  match pKey with
  | none => first acc p
  | some key =>
    if isEmpty key then first acc p
    else
      match acc.db.lowerBound (genDbKey p key) with
      | [] => processData p []
      | record :: pDbIt =>
        processData p (if record.1 = genDbKey p key then pDbIt else record :: pDbIt)

/-- `Next`. -/
def next (it : CDBAccessIterator K V) : Option (CDBAccessIterator K V) :=
  match it.pDbIt with
  | [] => none
  | _ :: pDbIt => processData p pDbIt

/-- The iterator over the records of a prefix. -/
def toBase : CDBBaseIterator K V where
  State := CDBAccessIterator K V
  init := ⟨[], none⟩
  first _ := first acc p
  seek pKey _ := seek acc p pKey
  seekUpper pKey _ := seekUpper acc p pKey
  next := next p
  cur := CDBAccessIterator.cur
  remaining it := it.pDbIt.length

end CDBAccessIterator

/-- A `CCacheMapIterator`: the entries from its position on. -/
structure CCacheMapIterator (K V : Type) where
  mapIt : List (K × V)

namespace CCacheMapIterator

variable {K V : Type} [LinearOrder K] [DbUtil K] (mapData : SortedMap K V)

/-- The current key and value, unless the iterator is at the end. -/
def cur (it : CCacheMapIterator K V) : Option (K × V) := it.mapIt.head?

/-- `First`. -/
def first : CCacheMapIterator K V := ⟨mapData.entries⟩

/-- `Seek`. -/
def seek (pKey : Option K) : CCacheMapIterator K V :=
  match pKey with
  | none => first mapData
  | some key => if isEmpty key then first mapData else ⟨mapData.lowerBound key⟩

/-- `SeekUpper`. -/
def seekUpper (pKey : Option K) : CCacheMapIterator K V :=
  match pKey with
  | none => first mapData
  | some key => if isEmpty key then first mapData else ⟨mapData.upperBound key⟩

/-- `Next`, which asserts that the iterator is valid. -/
def next (it : CCacheMapIterator K V) : Option (CCacheMapIterator K V) :=
  match it.mapIt with
  | [] => none
  | _ :: mapIt => some ⟨mapIt⟩

end CCacheMapIterator

/-- A `CDBCacheIteratorImpl` over a base iterator with states `B`. -/
structure CDBCacheIteratorImpl (K V B : Type) where
  spMapIt : CCacheMapIterator K V
  spBaseIt : B
  isMapData : Bool
  isSameKey : Bool
  spData : Option (K × V)
  isValid : Bool
  count : ℕ

namespace CDBCacheIteratorImpl

variable {K V : Type} [LinearOrder K] [DbUtil K] [DbUtil V] (mapData : SortedMap K V)
  (base : CDBBaseIterator K V)

/-- `ProcessGetData`: the smaller of the two current keys, that of the map when they are equal. -/
def processGetData (it : CDBCacheIteratorImpl K V base.State) :
    CDBCacheIteratorImpl K V base.State :=
  match it.spMapIt.cur, base.cur it.spBaseIt with
  | some m, some b =>
    if b.1 < m.1 then { it with isMapData := false, isSameKey := false, spData := some b }
    else if m.1 < b.1 then { it with isMapData := true, isSameKey := false, spData := some m }
    else { it with isMapData := true, isSameKey := true, spData := some m }
  | some m, none => { it with isMapData := true, isSameKey := false, spData := some m }
  | none, b => { it with isMapData := false, isSameKey := false, spData := b }

/-- `InternalNext`, which asserts that the base is valid at a common key. -/
def internalNext (it : CDBCacheIteratorImpl K V base.State) :
    Option (CDBCacheIteratorImpl K V base.State) :=
  if it.isMapData then
    it.spMapIt.next.bind fun spMapIt =>
      if it.isSameKey then
        if (base.cur it.spBaseIt).isSome then
          (base.next it.spBaseIt).map fun spBaseIt =>
            { it with spMapIt := spMapIt, spBaseIt := spBaseIt }
        else none
      else some { it with spMapIt := spMapIt }
  else (base.next it.spBaseIt).map fun spBaseIt => { it with spBaseIt := spBaseIt }

/-- `sp_map_it->IsValid() || sp_base_it->IsValid()`. -/
def checkValid (it : CDBCacheIteratorImpl K V base.State) : CDBCacheIteratorImpl K V base.State :=
  { it with isValid := it.spMapIt.cur.isSome || (base.cur it.spBaseIt).isSome }

/-- The loop of `ProcessData`, which passes over empty values; `none` also when the fuel runs out. -/
def processLoop : ℕ → CDBCacheIteratorImpl K V base.State →
    Option (CDBCacheIteratorImpl K V base.State)
  | 0, _ => none
  | fuel + 1, it =>
    if it.isValid then
      let it := processGetData base it
      match it.spData with
      | some (_, value) =>
        if isEmpty value then
          (internalNext base it).bind fun it => processLoop fuel (checkValid base it)
        else some { it with count := it.count + 1 }
      | none => none
    else some it

/-- The positions that are left. -/
def remaining (it : CDBCacheIteratorImpl K V base.State) : ℕ :=
  it.spMapIt.mapIt.length + base.remaining it.spBaseIt

/-- `ProcessData`. -/
def processData (it : CDBCacheIteratorImpl K V base.State) :
    Option (CDBCacheIteratorImpl K V base.State) :=
  processLoop base (remaining base it + 1) (checkValid base it)

/-- Move both iterators and process. -/
def move (it : CDBCacheIteratorImpl K V base.State) (spMapIt : CCacheMapIterator K V)
    (spBaseIt : Option base.State) : Option (CDBCacheIteratorImpl K V base.State) :=
  spBaseIt.bind fun spBaseIt => processData base { it with spMapIt := spMapIt, spBaseIt := spBaseIt }

/-- `First`. -/
def first (it : CDBCacheIteratorImpl K V base.State) : Option (CDBCacheIteratorImpl K V base.State) :=
  move base it (CCacheMapIterator.first mapData) (base.first it.spBaseIt)

/-- `Seek`. -/
def seek (pKey : Option K) (it : CDBCacheIteratorImpl K V base.State) :
    Option (CDBCacheIteratorImpl K V base.State) :=
  match pKey with
  | none => first mapData base it
  | some key =>
    if isEmpty key then first mapData base it
    else move base it (CCacheMapIterator.seek mapData pKey) (base.seek pKey it.spBaseIt)

/-- `SeekUpper`. -/
def seekUpper (pKey : Option K) (it : CDBCacheIteratorImpl K V base.State) :
    Option (CDBCacheIteratorImpl K V base.State) :=
  match pKey with
  | none => first mapData base it
  | some key =>
    if isEmpty key then first mapData base it
    else move base it (CCacheMapIterator.seekUpper mapData pKey) (base.seekUpper pKey it.spBaseIt)

/-- `Next`. -/
def next (it : CDBCacheIteratorImpl K V base.State) : Option (CDBCacheIteratorImpl K V base.State) :=
  (internalNext base it).bind (processData base)

/-- The iterator over the entries of a cache and over its base. -/
def toBase : CDBBaseIterator K V where
  State := CDBCacheIteratorImpl K V base.State
  init := ⟨⟨[]⟩, base.init, false, false, none, false, 0⟩
  first := first mapData base
  seek := seek mapData base
  seekUpper := seekUpper mapData base
  next := next base
  cur it := if it.isValid then it.spData else none
  remaining := remaining base

end CDBCacheIteratorImpl

/-- `CDBCacheIteratorImpl::Create`, down to the records under the last cache. -/
def CacheStack.create {K V : Type} [LinearOrder K] [Serial K] [DbUtil K] [Serial V] [DbUtil V]
    (acc : CDBAccess) (p : PrefixType) : CacheStack K V → CDBBaseIterator K V
  | [] => CDBAccessIterator.toBase acc p
  | c :: pBase => CDBCacheIteratorImpl.toBase c.mapData (create acc p pBase)

/-! ## Walks -/

/-- Where a walk starts. -/
inductive Start (K : Type)
  | first
  | seek (pKey : Option K)
  | seekUpper (pKey : Option K)

namespace CDBBaseIterator

variable {K V : Type} (it : CDBBaseIterator K V)

/-- Go to the start of a walk. -/
def begin : Start K → it.State → Option it.State
  | .first => it.first
  | .seek pKey => it.seek pKey
  | .seekUpper pKey => it.seekUpper pKey

/-- `for (; it.IsValid(); it.Next())`: the keys and values on the way. -/
def visited : ℕ → it.State → Option (List (K × V))
  | 0, _ => none
  | fuel + 1, st =>
    match it.cur st with
    | none => some []
    | some e => (it.next st).bind fun st' => (visited fuel st').map (e :: ·)

/-- A whole walk from a start. -/
def walk (start : Start K) (st : it.State) : Option (List (K × V)) :=
  (it.begin start st).bind fun st => it.visited (it.remaining st + 1) st

end CDBBaseIterator

end Inery
