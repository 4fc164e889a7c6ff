import IneryPersistence.Lib.Overlay
import IneryPersistence.Db.Access

/-!
# The simple key-value cache

`InerySimpleKVCache` keeps one value of the database in `ptrData`. It reads through to its base like
the composite cache, and asserts that the database holds no empty value.

* `getDataPtr`, `getData`, `hasData`, `setData`, `eraseData`, `flush`, `undoData`, `undoDataList`;
* `SingleStored`, `getDataPtr_isSome`: when the assertion of `getDataPtr` holds;
* `getDataPtr_spec`, `getDataPtr_cons`: a read finds the first value and moves no level's;
* `setData_cons`, `eraseData_cons`, **`view_flush_base`**: what the writes leave.
-/

namespace Inery

open KV

/-- The data member of an `InerySimpleKVCache`. -/
structure InerySimpleKVCache (V : Type) where
  ptrData : Option V

/-- A cache followed by the caches under it; under the last one is the database. -/
abbrev SimpleStack (V : Type) := List (InerySimpleKVCache V)

namespace InerySimpleKVCache

variable {V : Type} [Serial V]

/-- `UndoData`; `none` when the log does not deserialize. -/
def undoData (_ : InerySimpleKVCache V) (dbOpLog : CDbOpLog) : Option (InerySimpleKVCache V) :=
  (unser (α := V) dbOpLog.value).map fun value => ⟨some value.1⟩

/-- `UndoDataList`: the last log first. -/
def undoDataList (c : InerySimpleKVCache V) (dbOpLogs : List CDbOpLog) :
    Option (InerySimpleKVCache V) :=
  dbOpLogs.reverse.foldlM undoData c

end InerySimpleKVCache

namespace SimpleStack

section Model

variable {V : Type} [Serial V] [DbUtil V] (acc : CDBAccess) (p : PrefixType)

/-- `GetDataPtr`: the value found and the stack after the copies; `none` when the assertion on the
value of the database stops the program. -/
def getDataPtr : SimpleStack V → Option (SimpleStack V × Option V)
  | [] =>
    match acc.getSingle p with
    | some v => if isEmpty v then none else some ([], some v)
    | none => some ([], none)
  | c :: pBase =>
    match c.ptrData with
    | some v => some (c :: pBase, some v)
    | none => (getDataPtr pBase).map fun r =>
      match r with
      | (pBase', some v) => (⟨some v⟩ :: pBase', some v)
      | (pBase', none) => (c :: pBase', none)

/-- `GetData`. -/
def getData (s : SimpleStack V) : Option (SimpleStack V × Option V) :=
  (getDataPtr acc p s).map fun r => (r.1, live r.2)

/-- `HasData`. -/
def hasData (s : SimpleStack V) : Option (SimpleStack V × Bool) :=
  (getDataPtr acc p s).map fun r => (r.1, (live r.2).isSome)

/-- `AddOpLog`, when a log is attached; the log of a single value has no key. -/
def addOpLog (log : Option CDBOpLogMap) (p : PrefixType) (oldValue : V) : Option CDBOpLogMap :=
  log.map fun m => m.addOpLog p ⟨[], ser oldValue⟩

/-- `SetData`. -/
def setData (log : Option CDBOpLogMap) (s : SimpleStack V) (value : V) :
    Option (SimpleStack V × Option CDBOpLogMap) :=
  (getDataPtr acc p s).map fun r =>
    match r with
    | (_ :: pBase, o) => (⟨some value⟩ :: pBase, addOpLog log p (o.getD (makeEmptyValue V)))
    | ([], _) => ([], log)

/-- `EraseData`: an absent value is left absent. -/
def eraseData (log : Option CDBOpLogMap) (s : SimpleStack V) :
    Option (SimpleStack V × Option CDBOpLogMap) :=
  (getDataPtr acc p s).map fun r =>
    match r with
    | (c :: pBase, some old) =>
      if isEmpty old then (c :: pBase, log)
      else (⟨some (setEmpty old)⟩ :: pBase, addOpLog log p old)
    | (s', _) => (s', log)

/-- `Clear`. -/
def clear : SimpleStack V → SimpleStack V
  | [] => []
  | _ :: pBase => ⟨none⟩ :: pBase

/-- `Flush`: the value moves to the base cache, or to the database. -/
def flush : SimpleStack V → CDBAccess × SimpleStack V
  | ⟨some v⟩ :: _ :: bs => (acc, ⟨none⟩ :: ⟨some v⟩ :: bs)
  | [⟨some v⟩] => (acc.writeSingle p v, [⟨none⟩])
  | s => (acc, s)

/-- The value a read meets first, on the way down to the database. -/
def find (s : SimpleStack V) : Option V := s.foldr (fun c o => c.ptrData.or o) (acc.getSingle p)

/-- The value a stack stands for: an empty one is an absent one. -/
def view (s : SimpleStack V) : Option V := live (find acc p s)

end Model

section Spec

variable {V : Type} [Serial V] (acc : CDBAccess) (p : PrefixType)

@[simp] theorem find_nil : find (V := V) acc p [] = acc.getSingle p := rfl

@[simp] theorem find_cons (c : InerySimpleKVCache V) (s : SimpleStack V) :
    find acc p (c :: s) = c.ptrData.or (find acc p s) := rfl

variable [DbUtil V]

/-- The database holds no empty value under the prefix, as the assertion of `getDataPtr` asks. -/
def SingleStored (V : Type) [Serial V] [DbUtil V] (acc : CDBAccess) (p : PrefixType) : Prop :=
  ∀ v : V, acc.getSingle p = some v → isEmpty v = false

theorem getDataPtr_isSome (h : SingleStored V acc p) (s : SimpleStack V) :
    ∃ r, getDataPtr acc p s = some r := by
  induction s with
  | nil =>
    rw [getDataPtr]
    split
    · next v hv => exact ⟨_, by rw [h v hv]; rfl⟩
    · exact ⟨_, rfl⟩
  | cons c s ih =>
    obtain ⟨r, hr⟩ := ih
    rw [getDataPtr, hr]
    split <;> exact ⟨_, rfl⟩

theorem setData_isSome (h : SingleStored V acc p) (log : Option CDBOpLogMap) (s : SimpleStack V)
    (v : V) : ∃ r, setData acc p log s v = some r := by
  obtain ⟨r, hr⟩ := getDataPtr_isSome acc p h s
  exact ⟨_, by rw [setData, hr]; rfl⟩

theorem eraseData_isSome (h : SingleStored V acc p) (log : Option CDBOpLogMap) (s : SimpleStack V) :
    ∃ r, eraseData acc p log s = some r := by
  obtain ⟨r, hr⟩ := getDataPtr_isSome acc p h s
  exact ⟨_, by rw [eraseData, hr]; rfl⟩

/-- **A read finds the first value on the way down, and moves no level's.** -/
theorem getDataPtr_spec {s : SimpleStack V} {r : SimpleStack V × Option V}
    (h : getDataPtr acc p s = some r) :
    r.2 = find acc p s ∧ ∀ j, find acc p (r.1.drop j) = find acc p (s.drop j) := by
  induction s generalizing r with
  | nil =>
    rw [getDataPtr] at h
    rw [find_nil]
    split at h
    · next v hv =>
      split_ifs at h
      obtain rfl := Option.some.inj h
      exact ⟨hv.symm, fun _ => rfl⟩
    · next hv =>
      obtain rfl := Option.some.inj h
      exact ⟨hv.symm, fun _ => rfl⟩
  | cons c s ih =>
    rw [getDataPtr] at h
    split at h
    · next v hv =>
      obtain rfl := Option.some.inj h
      exact ⟨by simp [hv], fun _ => rfl⟩
    · next hv =>
      obtain ⟨⟨s', o⟩, hs', rfl⟩ := Option.map_eq_some_iff.mp h
      obtain ⟨ho, hfind⟩ := ih hs'
      cases o with
      | none =>
        refine ⟨by simpa [hv] using ho, fun j => ?_⟩
        cases j with
        | zero => simpa [hv] using hfind 0
        | succ j => simpa using hfind j
      | some v =>
        refine ⟨by simpa [hv] using ho, fun j => ?_⟩
        cases j with
        | zero => simpa [hv] using ho
        | succ j => simpa using hfind j

theorem getDataPtr_cons {c : InerySimpleKVCache V} {s : SimpleStack V}
    {r : SimpleStack V × Option V} (h : getDataPtr acc p (c :: s) = some r) :
    ∃ s', r = (⟨find acc p (c :: s)⟩ :: s', find acc p (c :: s)) ∧
      ∀ j, find acc p (s'.drop j) = find acc p (s.drop j) := by
  obtain ⟨hr, hfind⟩ := getDataPtr_spec acc p h
  have htop : ∃ s', r.1 = ⟨r.2⟩ :: s' := by
    rw [getDataPtr] at h
    split at h
    · next v hv =>
      obtain rfl := Option.some.inj h
      exact ⟨s, by rw [← hv]⟩
    · next hv =>
      obtain ⟨⟨s', o⟩, -, rfl⟩ := Option.map_eq_some_iff.mp h
      cases o with
      | none =>
        refine ⟨s', ?_⟩
        show c :: s' = ⟨none⟩ :: s'
        rw [← hv]
      | some v => exact ⟨s', rfl⟩
  obtain ⟨s', hs'⟩ := htop
  refine ⟨s', Prod.ext (by rw [hs', hr]) hr, fun j => ?_⟩
  have h1 := hfind (j + 1)
  rwa [hs'] at h1

/-! ## Writes -/

variable {c : InerySimpleKVCache V} {s : SimpleStack V} {log log' : Option CDBOpLogMap}
  {s₁ : SimpleStack V}

theorem setData_cons {v : V} (h : setData acc p log (c :: s) v = some (s₁, log')) :
    log' = addOpLog log p ((find acc p (c :: s)).getD (makeEmptyValue V)) ∧
      ∃ s', s₁ = ⟨some v⟩ :: s' ∧ ∀ j, find acc p (s'.drop j) = find acc p (s.drop j) := by
  obtain ⟨r, hr, h⟩ := Option.map_eq_some_iff.mp h
  obtain ⟨s', rfl, hfind⟩ := getDataPtr_cons acc p hr
  obtain ⟨rfl, rfl⟩ := Prod.mk.inj h
  exact ⟨rfl, s', rfl, hfind⟩

theorem eraseData_cons (h : eraseData acc p log (c :: s) = some (s₁, log')) :
    ∃ c' s', s₁ = c' :: s' ∧ (∀ j, find acc p (s'.drop j) = find acc p (s.drop j)) ∧
      ((view acc p (c :: s) = none ∧ log' = log ∧ c' = ⟨find acc p (c :: s)⟩) ∨
        ∃ old, view acc p (c :: s) = some old ∧ log' = addOpLog log p old ∧
          c' = ⟨some (setEmpty old)⟩) := by
  obtain ⟨r, hr, h⟩ := Option.map_eq_some_iff.mp h
  obtain ⟨s', rfl, hfind⟩ := getDataPtr_cons acc p hr
  rcases ho : find acc p (c :: s) with _ | old
  · rw [ho] at h
    obtain ⟨rfl, rfl⟩ := Prod.mk.inj h
    exact ⟨_, s', rfl, hfind, .inl ⟨by rw [view, ho, live_none], rfl, rfl⟩⟩
  · rw [ho] at h
    simp only at h
    split_ifs at h with he
    · obtain ⟨rfl, rfl⟩ := Prod.mk.inj h
      exact ⟨_, s', rfl, hfind, .inl ⟨by rw [view, ho, live_of_isEmpty he], rfl, rfl⟩⟩
    · obtain ⟨rfl, rfl⟩ := Prod.mk.inj h
      rw [Bool.not_eq_true] at he
      exact ⟨_, s', rfl, hfind, .inr ⟨old, by rw [view, ho, live_of_not_isEmpty he], rfl, rfl⟩⟩

/-! ## Flush -/

theorem live_getSingle_writeSingle [LawfulSerial V] (v : V) :
    live ((acc.writeSingle p v).getSingle (V := V) p) = live (some v) :=
  live_readDb_batchEntry acc.db (getKeyPrefix p) v

theorem singleStored_writeSingle [LawfulSerial V] (v : V) :
    SingleStored V (acc.writeSingle p v) p := by
  intro w hw
  have h : readDb ((batchEntry (getKeyPrefix p) v).apply acc.db) (getKeyPrefix p) = some w := hw
  unfold batchEntry at h
  split_ifs at h with he
  · simp [readDb, BatchOp.apply, SortedMap.find?_erase] at h
  · obtain rfl : v = w := by simpa [readDb, BatchOp.apply, LawfulSerial.unser_ser] using h
    simpa using he

theorem singleStored_flush [LawfulSerial V] (h : SingleStored V acc p) (s : SimpleStack V) :
    SingleStored V (flush acc p s).1 p := by
  match s with
  | [] | ⟨none⟩ :: _ | ⟨some _⟩ :: _ :: _ => exact h
  | [⟨some v⟩] => exact singleStored_writeSingle acc p v

/-- **After a flush, the level below has the value of the cache that was flushed.** -/
theorem view_flush_base [LawfulSerial V] (c : InerySimpleKVCache V) (s : SimpleStack V) :
    ∃ s', (flush acc p (c :: s)).2 = ⟨none⟩ :: s' ∧
      view (flush acc p (c :: s)).1 p s' = view acc p (c :: s) := by
  obtain ⟨_ | v⟩ := c
  · exact ⟨s, by simp [flush], by simp [flush, view]⟩
  · cases s with
    | nil => exact ⟨[], rfl, live_getSingle_writeSingle acc p v⟩
    | cons b s => exact ⟨_, rfl, by simp [flush, view]⟩

end Spec

end SimpleStack

end Inery
