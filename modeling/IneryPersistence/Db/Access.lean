import IneryPersistence.Db.Prefix

/-!
# The database and the operation log

* `CDBAccess`, `getData`, `getSingle`, `IneryLevelDBBatch`, `writeBatch`, `writeSingle`;
* `live_readDb_foldl`: what a batch with distinct keys leaves in the database;
* `CDbOpLog`, `CDBOpLogMap`, `addOpLog`.
-/

namespace Inery

open KV

/-- LevelDB: byte strings under byte strings, listed in bytewise order. -/
abbrev LevelDb := SortedMap Bytes Bytes

/-- `CDBAccess`. -/
structure CDBAccess where
  dbNameType : DBNameType
  db : LevelDb

/-- `IneryLevelDBWrapper::Read`: a value that does not deserialize counts as not found. -/
def readDb {V : Type} [Serial V] (db : LevelDb) (key : Bytes) : Option V :=
  (db.find? key).bind fun strValue => (unser strValue).map Prod.fst

/-- One operation of an `IneryLevelDBBatch`. -/
inductive BatchOp
  | put (key value : Bytes)
  | delete (key : Bytes)

def BatchOp.key : BatchOp → Bytes
  | put key _ => key
  | delete key => key

def BatchOp.apply (db : LevelDb) : BatchOp → LevelDb
  | put key value => db.insert key value
  | delete key => db.erase key

/-- `CDBAccess::WriteBatch`: the operations in their order. -/
def CDBAccess.writeBatch (acc : CDBAccess) (batch : List BatchOp) : CDBAccess :=
  { acc with db := batch.foldl BatchOp.apply acc.db }

/-- The batch entry that stores `value`, or erases the record when it is empty. -/
def batchEntry {V : Type} [Serial V] [DbUtil V] (key : Bytes) (value : V) : BatchOp :=
  if isEmpty value then .delete key else .put key (ser value)

section Access

variable {K V : Type} [Serial K] [Serial V] [DbUtil V]

/-- `CDBAccess::GetData` for a composite cache. -/
def CDBAccess.getData (acc : CDBAccess) (p : PrefixType) (key : K) : Option V :=
  readDb acc.db (genDbKey p key)

/-- `CDBAccess::GetData` for a single value. -/
def CDBAccess.getSingle (acc : CDBAccess) (p : PrefixType) : Option V := readDb acc.db (getKeyPrefix p)

/-- `CDBAccess::WriteBatch` for a single value. -/
def CDBAccess.writeSingle (acc : CDBAccess) (p : PrefixType) (value : V) : CDBAccess :=
  acc.writeBatch [batchEntry (getKeyPrefix p) value]

omit [Serial K] in
theorem batchEntry_key (key : Bytes) (value : V) : (batchEntry key value).key = key := by
  unfold batchEntry
  split_ifs <;> rfl

theorem apply_find?_of_ne (db : LevelDb) {op : BatchOp} {key : Bytes} (h : key ≠ op.key) :
    (op.apply db).find? key = db.find? key := by
  cases op with
  | put key' value => exact SortedMap.find?_insert_of_ne _ h _
  | delete key' =>
    have hne : key ≠ key' := h
    rw [BatchOp.apply, SortedMap.find?_erase, if_neg hne]

theorem find?_foldl_apply_of_notMem (batch : List BatchOp) (db : LevelDb) {key : Bytes}
    (h : ∀ op ∈ batch, key ≠ op.key) : (batch.foldl BatchOp.apply db).find? key = db.find? key := by
  induction batch generalizing db with
  | nil => rfl
  | cons op batch ih =>
    rw [List.foldl_cons, ih _ fun op' hop => h op' (List.mem_cons_of_mem _ hop),
      apply_find?_of_ne db (h op List.mem_cons_self)]

theorem live_readDb_batchEntry [LawfulSerial V] (db : LevelDb) (key : Bytes) (value : V) :
    live (readDb (V := V) ((batchEntry key value).apply db) key) = live (some value) := by
  unfold batchEntry
  split_ifs with h
  · simp [readDb, BatchOp.apply, SortedMap.find?_erase, live_of_isEmpty h]
  · simp [readDb, BatchOp.apply, LawfulSerial.unser_ser]

/-- **What a batch with distinct keys leaves in the database.** -/
theorem live_readDb_foldl {l : List (Bytes × V)} (hl : (l.map Prod.fst).Nodup) [LawfulSerial V]
    (db : LevelDb) (key : Bytes) :
    live (readDb (V := V) ((l.map fun e => batchEntry e.1 e.2).foldl BatchOp.apply db) key) =
      live ((lookup key l).or (readDb db key)) := by
  induction l generalizing db with
  | nil => rfl
  | cons e l ih =>
    obtain ⟨k, v⟩ := e
    obtain ⟨hk, hl⟩ := List.nodup_cons.mp hl
    rw [List.map_cons, List.foldl_cons, ih hl, lookup_cons]
    split_ifs with h
    · subst h
      have hnone : lookup key l = none :=
        lookup_eq_none fun e he heq => hk (List.mem_map.mpr ⟨e, he, heq.symm⟩)
      rw [hnone, Option.none_or, live_readDb_batchEntry]
      rfl
    · have hread : readDb (V := V) ((batchEntry k v).apply db) key = readDb db key := by
        unfold readDb
        rw [apply_find?_of_ne db (by rwa [batchEntry_key])]
      rw [hread]

end Access

/-- `CDbOpLog`: a serialized key and the serialized value it had. -/
structure CDbOpLog where
  key : Bytes
  value : Bytes

/-- `CDBOpLogMap`: the operation logs by prefix name. -/
abbrev CDBOpLogMap := SortedMap Bytes (List CDbOpLog)

/-- `CDBOpLogMap::AddOpLog`. -/
def CDBOpLogMap.addOpLog (m : CDBOpLogMap) (p : PrefixType) (dbOpLog : CDbOpLog) : CDBOpLogMap :=
  m.insert (getKeyPrefix p) ((m.find? (getKeyPrefix p)).getD [] ++ [dbOpLog])

/-- The logs of one prefix type (`GetDbOpLogsPtr`). -/
def CDBOpLogMap.logs (m : CDBOpLogMap) (p : PrefixType) : List CDbOpLog :=
  (m.find? (getKeyPrefix p)).getD []

theorem CDBOpLogMap.logs_addOpLog_self (m : CDBOpLogMap) (p : PrefixType) (l : CDbOpLog) :
    (m.addOpLog p l).logs p = m.logs p ++ [l] := by
  simp [CDBOpLogMap.addOpLog, CDBOpLogMap.logs]

theorem CDBOpLogMap.logs_addOpLog_of_ne (m : CDBOpLogMap) {p q : PrefixType} (hp : p.InUse)
    (hq : q.InUse) (h : q ≠ p) (l : CDbOpLog) : (m.addOpLog p l).logs q = m.logs q := by
  have hne : getKeyPrefix q ≠ getKeyPrefix p := fun e => h (getKeyPrefix_injective hq hp e)
  rw [CDBOpLogMap.addOpLog, CDBOpLogMap.logs, SortedMap.find?_insert_of_ne _ hne]
  rfl

end Inery
