import IneryPersistence.Lib.Overlay
import IneryPersistence.Db.Access

/-!
# The composite key-value cache

`IneryCompositeKVCache` keeps the entries it has read or written in `mapData`; an entry with an
empty value is a deletion. A read that misses goes to the base cache, in the end to the database,
and copies what it finds into every cache it passed.

* `getDataIt`, `getData`, `hasData`, `setData`, `eraseData`, `flush`, `undoData`, `undoDataList`;
* `find`: the entry a stack of caches finds for a key, before emptiness is looked at;
* **`getDataIt_snd`**, **`find_getDataIt`**: a read finds that entry and moves no level's entries;
* `setDataToSelf_mapData`, **`find_flush`**, **`live_find_flush_root`**: what the writes leave.
-/

namespace Inery

open KV

/-- The data members of an `IneryCompositeKVCache`. The operation log that `pDbOpLogMap` points to
is an argument of the functions that write to it. -/
structure IneryCompositeKVCache (K V : Type) [LinearOrder K] where
  mapData : SortedMap K V
  isCalcSize : Bool
  size : UInt32

/-- A cache followed by the caches under it (`pBase`); under the last one is the database. -/
abbrev CacheStack (K V : Type) [LinearOrder K] := List (IneryCompositeKVCache K V)

section Model

variable {K V : Type} [LinearOrder K] [Serial K] [DbUtil K] [Serial V] [DbUtil V]

/-- `CalcDataSize`. -/
def calcDataSize {A : Type} [Serial A] (d : A) : UInt32 := UInt32.ofNat (ser d).length

namespace IneryCompositeKVCache

/-- `IncDataSize` of a key and its value. -/
def incDataSize (c : IneryCompositeKVCache K V) (keyIn : K) (valueIn : V) :
    IneryCompositeKVCache K V :=
  if c.isCalcSize then { c with size := c.size + calcDataSize keyIn + calcDataSize valueIn } else c

/-- `IncDataSize` of a value. -/
def incValueSize (c : IneryCompositeKVCache K V) (valueIn : V) : IneryCompositeKVCache K V :=
  if c.isCalcSize then { c with size := c.size + calcDataSize valueIn } else c

/-- `DecDataSize`. -/
def decDataSize (c : IneryCompositeKVCache K V) (valueIn : V) : IneryCompositeKVCache K V :=
  if c.isCalcSize then
    let sz := calcDataSize valueIn
    { c with size := if c.size > sz then c.size - sz else 0 }
  else c

/-- `UpdateDataSize`: the new value is added before the old one is taken off. -/
def updateDataSize (c : IneryCompositeKVCache K V) (oldValue newValue : V) :
    IneryCompositeKVCache K V :=
  if c.isCalcSize then
    let size := c.size + calcDataSize newValue
    let oldSz := calcDataSize oldValue
    { c with size := if size > oldSz then size - oldSz else 0 }
  else c

/-- `*it->second = value`. -/
def assign (c : IneryCompositeKVCache K V) (key : K) (value : V) : IneryCompositeKVCache K V :=
  { c with mapData := c.mapData.insert key value }

/-- `AddDataToMap`; its callers have looked for the key, so that `emplace` never fails. -/
def addDataToMap (c : IneryCompositeKVCache K V) (keyIn : K) (value : V) :
    IneryCompositeKVCache K V :=
  (c.incDataSize keyIn value).assign keyIn value

/-- `SetDataToSelf`. -/
def setDataToSelf (c : IneryCompositeKVCache K V) (key : K) (value : V) :
    IneryCompositeKVCache K V :=
  match c.mapData.find? key with
  | some old => (c.updateDataSize old value).assign key value
  | none => c.addDataToMap key value

/-- `Clear`. -/
def clear (c : IneryCompositeKVCache K V) : IneryCompositeKVCache K V :=
  { c with mapData := ∅, size := 0 }

/-- `UndoData`; `none` when the log does not deserialize. -/
def undoData (c : IneryCompositeKVCache K V) (dbOpLog : CDbOpLog) :
    Option (IneryCompositeKVCache K V) :=
  (unser (α := K) dbOpLog.key).bind fun key =>
    (unser (α := V) dbOpLog.value).map fun value => c.setDataToSelf key.1 value.1

/-- `UndoDataList`: the last log first. -/
def undoDataList (c : IneryCompositeKVCache K V) (dbOpLogs : List CDbOpLog) :
    Option (IneryCompositeKVCache K V) :=
  dbOpLogs.reverse.foldlM undoData c

end IneryCompositeKVCache

/-- `AddOpLog`, when a log is attached. -/
def addOpLog {A : Type} [Serial A] (log : Option CDBOpLogMap) (p : PrefixType) (key : Bytes)
    (oldValue : A) : Option CDBOpLogMap :=
  log.map fun m => m.addOpLog p ⟨key, ser oldValue⟩

namespace CacheStack

variable (acc : CDBAccess) (p : PrefixType)

/-- `GetDataIt`: the entry found, and the stack after the copies made on the way up. -/
def getDataIt (key : K) : CacheStack K V → CacheStack K V × Option V
  | [] => ([], acc.getData p key)
  | c :: pBase =>
    match c.mapData.find? key with
    | some v => (c :: pBase, some v)
    | none =>
      match getDataIt key pBase with
      | (pBase', some v) => (c.addDataToMap key v :: pBase', some v)
      | (pBase', none) => (c :: pBase', none)

/-- `GetData`. -/
def getData (s : CacheStack K V) (key : K) : CacheStack K V × Option V :=
  if isEmpty key then (s, none)
  else
    let r := getDataIt acc p key s
    (r.1, live r.2)

/-- `HasData`. -/
def hasData (s : CacheStack K V) (key : K) : CacheStack K V × Bool :=
  if isEmpty key then (s, false)
  else
    let r := getDataIt acc p key s
    (r.1, (live r.2).isSome)

/-- `SetData`. -/
def setData (log : Option CDBOpLogMap) (s : CacheStack K V) (key : K) (value : V) :
    CacheStack K V × Bool × Option CDBOpLogMap :=
  if isEmpty key then (s, false, log)
  else
    match getDataIt acc p key s with
    | (c :: pBase, none) =>
      (c.addDataToMap key value :: pBase, true, addOpLog log p (ser key) (makeEmptyValue V))
    | (c :: pBase, some old) =>
      ((c.updateDataSize old value).assign key value :: pBase, true, addOpLog log p (ser key) old)
    | ([], _) => ([], false, log)

/-- `EraseData`: an absent entry is left absent. -/
def eraseData (log : Option CDBOpLogMap) (s : CacheStack K V) (key : K) :
    CacheStack K V × Bool × Option CDBOpLogMap :=
  if isEmpty key then (s, false, log)
  else
    match getDataIt acc p key s with
    | (c :: pBase, some old) =>
      if isEmpty old then (c :: pBase, true, log)
      else
        (((c.decDataSize old).assign key (setEmpty old)).incValueSize (setEmpty old) :: pBase, true,
          addOpLog log p (ser key) old)
    | (s', none) => (s', true, log)
    | ([], _) => ([], false, log)

/-- `Flush`: into the base cache, or into the database, where an empty value erases the record. -/
def flush : CacheStack K V → CDBAccess × CacheStack K V
  | [] => (acc, [])
  | [c] =>
    (acc.writeBatch (c.mapData.entries.map fun item => batchEntry (genDbKey p item.1) item.2),
      [c.clear])
  | c :: b :: bs =>
    (acc, c.clear :: c.mapData.entries.foldl (fun b item => b.setDataToSelf item.1 item.2) b :: bs)

/-- The entry a read of `key` meets first, on the way down to the database. -/
def find (s : CacheStack K V) : K → Option V :=
  pile (s.map fun c => c.mapData.find?) (acc.getData p)

/-- **The flat map a stack stands for**: an empty value is an absent one. -/
def view (s : CacheStack K V) (key : K) : Option V := live (find acc p s key)

end CacheStack

end Model

/-! ## What the operations do to the entries -/

section Entries

variable {K V : Type} [LinearOrder K] [Serial K] [DbUtil K] [Serial V] [DbUtil V]

namespace IneryCompositeKVCache

variable (c : IneryCompositeKVCache K V)

omit [DbUtil K] [DbUtil V]

@[simp] theorem incDataSize_mapData (k : K) (v : V) : (c.incDataSize k v).mapData = c.mapData := by
  unfold incDataSize; split_ifs <;> rfl

omit [Serial K] in
@[simp] theorem incValueSize_mapData (v : V) : (c.incValueSize v).mapData = c.mapData := by
  unfold incValueSize; split_ifs <;> rfl

omit [Serial K] in
@[simp] theorem decDataSize_mapData (v : V) : (c.decDataSize v).mapData = c.mapData := by
  unfold decDataSize; split_ifs <;> rfl

omit [Serial K] in
@[simp] theorem updateDataSize_mapData (v w : V) : (c.updateDataSize v w).mapData = c.mapData := by
  unfold updateDataSize; split_ifs <;> rfl

omit [Serial K] [Serial V] in
@[simp] theorem assign_mapData (k : K) (v : V) : (c.assign k v).mapData = c.mapData.insert k v := rfl

@[simp] theorem addDataToMap_mapData (k : K) (v : V) :
    (c.addDataToMap k v).mapData = c.mapData.insert k v := by
  simp [addDataToMap]

@[simp] theorem setDataToSelf_mapData (k : K) (v : V) :
    (c.setDataToSelf k v).mapData = c.mapData.insert k v := by
  unfold setDataToSelf
  split <;> simp

omit [Serial K] [Serial V] in
@[simp] theorem clear_mapData : c.clear.mapData = ∅ := rfl

theorem foldl_setDataToSelf_mapData (l : List (K × V)) :
    (l.foldl (fun b item => b.setDataToSelf item.1 item.2) c).mapData =
      l.foldl (fun m e => m.insert e.1 e.2) c.mapData := by
  induction l generalizing c with
  | nil => rfl
  | cons e l ih => rw [List.foldl_cons, List.foldl_cons, ih, setDataToSelf_mapData]

end IneryCompositeKVCache

namespace CacheStack

variable (acc : CDBAccess) (p : PrefixType)

omit [DbUtil K] [DbUtil V]

@[simp] theorem find_nil : find (K := K) (V := V) acc p [] = acc.getData p := rfl

@[simp] theorem find_cons (c : IneryCompositeKVCache K V) (s : CacheStack K V) :
    find acc p (c :: s) = override c.mapData.find? (find acc p s) := rfl

/-- **A read finds the first entry on the way down.** -/
theorem getDataIt_snd (key : K) (s : CacheStack K V) :
    (getDataIt acc p key s).2 = find acc p s key := by
  induction s with
  | nil => rfl
  | cons c s ih =>
    rw [getDataIt, find_cons]
    split
    · next v hv => rw [override_of_some hv]
    · next hv =>
      rw [override_of_none hv, ← ih]
      split <;> next h => rw [h]

theorem length_getDataIt (key : K) (s : CacheStack K V) :
    (getDataIt acc p key s).1.length = s.length := by
  induction s with
  | nil => rfl
  | cons c s ih =>
    rw [getDataIt]
    split
    · rfl
    · split <;> next h => rw [h] at ih; simpa using ih

/-- **The copies of a read change no level's entries.** -/
theorem find_getDataIt (key : K) (s : CacheStack K V) (j : ℕ) :
    find acc p ((getDataIt acc p key s).1.drop j) = find acc p (s.drop j) := by
  induction s generalizing j with
  | nil => rfl
  | cons c s ih =>
    rw [getDataIt]
    split
    · rfl
    · next hv =>
      have hsnd := getDataIt_snd acc p key s
      split <;> next h =>
        rw [h] at ih hsnd
        cases j with
        | zero =>
          have h0 := ih 0
          simp only [List.drop_zero] at h0
          simp [h0, SortedMap.find?_insert_eq_update, override_copy, hv, ← hsnd]
        | succ j => simpa using ih j

theorem find?_getDataIt (key : K) (c : IneryCompositeKVCache K V) (s : CacheStack K V) :
    ∃ c' s', (getDataIt acc p key (c :: s)).1 = c' :: s' ∧
      c'.mapData.find? key = find acc p (c :: s) key ∧
        ∀ key', key' ≠ key → c'.mapData.find? key' = c.mapData.find? key' := by
  rw [getDataIt, find_cons]
  split
  · next v hv => exact ⟨c, s, rfl, by rw [override_of_some hv, hv], fun _ _ => rfl⟩
  · next hv =>
    have hsnd := getDataIt_snd acc p key s
    rw [override_of_none hv, ← hsnd]
    split
    · next s' v h =>
      refine ⟨_, s', rfl, ?_, fun key' hk => ?_⟩
      · simp [h]
      · rw [IneryCompositeKVCache.addDataToMap_mapData, SortedMap.find?_insert_of_ne _ hk]
    · next s' h => exact ⟨c, s', rfl, by simp [h, hv], fun _ _ => rfl⟩

/-- **A flush into the base cache lays the entries over those of the base.** -/
theorem find_flush (c b : IneryCompositeKVCache K V) (s : CacheStack K V) [DbUtil V] :
    find acc p ((flush acc p (c :: b :: s)).2.drop 1) = find acc p (c :: b :: s) := by
  have hb : (c.mapData.entries.foldl (fun b item => b.setDataToSelf item.1 item.2) b).mapData.find? =
      override c.mapData.find? b.mapData.find? := by
    funext k
    rw [IneryCompositeKVCache.foldl_setDataToSelf_mapData,
      SortedMap.find?_foldl_insert c.mapData.ascending]
    rfl
  simp only [flush, List.drop_one, List.tail_cons, find_cons, hb, override_assoc]

/-- **A flush of the root leaves the live entries in the database.** -/
theorem live_find_flush_root [DbUtil V] [LawfulSerial V]
    (hinj : Function.Injective (genDbKey (K := K) p)) (c : IneryCompositeKVCache K V) (key : K) :
    live (find (V := V) (flush acc p [c]).1 p [] key) = live (find acc p [c] key) := by
  have hnodup : ((c.mapData.entries.map fun e => (genDbKey p e.1, e.2)).map Prod.fst).Nodup := by
    have h := c.mapData.ascending.nodup_keys.map hinj
    rw [List.map_map] at h ⊢
    exact h
  have hlookup : ∀ l : List (K × V), lookup (genDbKey p key) (l.map fun e => (genDbKey p e.1, e.2)) =
      lookup key l := by
    intro l
    induction l with
    | nil => rfl
    | cons e l ih =>
      obtain ⟨a, w⟩ := e
      rw [List.map_cons, lookup_cons, lookup_cons, ih]
      by_cases h : key = a
      · rw [if_pos h, if_pos (congrArg (genDbKey p) h)]
      · rw [if_neg h, if_neg (hinj.ne h)]
  have h := live_readDb_foldl hnodup acc.db (genDbKey p key)
  rw [List.map_map, hlookup] at h
  exact h

end CacheStack

end Entries

end Inery
