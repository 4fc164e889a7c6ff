import IneryPersistence.Cache.Refine
import IneryPersistence.Iterator.Stream
import IneryPersistence.Lib.Lex

/-!
# The merge iterator enumerates the view

* `Bound.Mem`, `Start.Admits`: the keys a walk may give;
* `mem_dbEntries`, `ascending_dbEntries`: the walk over the records;
* `live_lookup_stackStream`: level by level, the list of a walk is the view within its bound;
* **`iterator_enumerates_view`**: a walk gives the live keys of the view, ascending, each once.
-/

namespace Inery

open KV

/-- The keys within a bound. -/
def Bound.Mem {K : Type} [LinearOrder K] : Bound K → K → Prop
  | all, _ => True
  | ge a, key => a ≤ key
  | gt a, key => a < key

theorem Bound.Mem.mono {K : Type} [LinearOrder K] {bound : Bound K} {a key : K} (h : bound.Mem a) (hle : a ≤ key) :
    bound.Mem key := by
  cases bound with
  | all => trivial
  | ge b => exact le_trans h hle
  | gt b => exact lt_of_lt_of_le h hle

/-- The keys that a walk from a start may give: all of them without a key to seek. -/
def Start.Admits {K : Type} [LinearOrder K] : Start K → K → Prop
  | first, _ | seek none, _ | seekUpper none, _ => True
  | seek (some a), key => a ≤ key
  | seekUpper (some a), key => a < key

section Records

variable {K V : Type} [Serial K] [Serial V] {acc : CDBAccess} {p : PrefixType}

theorem le_of_mem_records {bound : Bound K} {r : Bytes × Bytes} (h : r ∈ bound.records p acc.db) :
    r ∈ acc.db.entries ∧ getKeyPrefix p ≤ r.1 := by
  cases bound with
  | all => exact SortedMap.mem_lowerBound.mp h
  | ge key =>
    obtain ⟨hmem, hle⟩ := SortedMap.mem_lowerBound.mp h
    exact ⟨hmem, (le_append _ _).trans hle⟩
  | gt key =>
    obtain ⟨hmem, hlt⟩ := SortedMap.mem_upperBound.mp h
    exact ⟨hmem, (le_append _ _).trans hlt.le⟩

theorem ascending_records (bound : Bound K) : Ascending (bound.records p acc.db) := by
  cases bound with
  | all | ge key => exact SortedMap.ascending_lowerBound _ _
  | gt key => exact SortedMap.ascending_upperBound _ _

theorem dbEntries_eq_filter (bound : Bound K) :
    dbEntries (K := K) (V := V) p (bound.records p acc.db) = ((bound.records p acc.db).filter fun record =>
      (getKeyPrefix p).isPrefixOf record.1).filterMap (decodeRecord p) := by
  rw [dbEntries, takeWhile_prefix (ascending_records bound) fun r hr => (le_of_mem_records hr).2]

section Decoded

variable [LawfulSerial K] [LawfulSerial V]

theorem mem_dbEntries_iff (hp : p.InUse) (hdb : WellStored K V acc p) {bound : Bound K} {key : K}
    {value : V} : (key, value) ∈ dbEntries p (bound.records p acc.db) ↔
      (genDbKey p key, ser value) ∈ bound.records p acc.db := by
  rw [dbEntries_eq_filter, List.mem_filterMap]
  constructor
  · rintro ⟨r, hr, hdec⟩
    obtain ⟨hmem, hpre⟩ := List.mem_filter.mp hr
    obtain ⟨k', v', rfl⟩ := hdb r (le_of_mem_records hmem).1 (List.isPrefixOf_iff_prefix.mp hpre)
    rw [CDBAccessIterator.decodeRecord_genDbKey hp] at hdec
    obtain ⟨rfl, rfl⟩ := Prod.mk.inj (Option.some.inj hdec)
    exact hmem
  · intro hmem
    refine ⟨_, List.mem_filter.mpr ⟨hmem, ?_⟩, CDBAccessIterator.decodeRecord_genDbKey hp key value⟩
    exact List.isPrefixOf_iff_prefix.mpr (List.prefix_append _ _)

theorem pairwise_dbEntries (hp : p.InUse) (hdb : WellStored K V acc p) (bound : Bound K) :
    (dbEntries (K := K) (V := V) p (bound.records p acc.db)).Pairwise fun e e' =>
      genDbKey p e.1 < genDbKey p e'.1 := by
  have hdec : ∀ r ∈ (bound.records p acc.db).filter fun record =>
      (getKeyPrefix p).isPrefixOf record.1, ∀ e : K × V, decodeRecord p r = some e →
        r.1 = genDbKey p e.1 := by
    intro r hr e he
    obtain ⟨hmem, hpre⟩ := List.mem_filter.mp hr
    obtain ⟨k', v', rfl⟩ := hdb r (le_of_mem_records hmem).1 (List.isPrefixOf_iff_prefix.mp hpre)
    rw [CDBAccessIterator.decodeRecord_genDbKey hp] at he
    rw [← Option.some.inj he]
  rw [dbEntries_eq_filter, List.pairwise_filterMap]
  refine ((ascending_records bound).filter _).imp_of_mem fun {r r'} hr hr' hlt e he e' he' => ?_
  rwa [hdec r hr e he, hdec r' hr' e' he'] at hlt

end Decoded

variable [LinearOrder K]

theorem genDbKey_lt_iff (hord : SameOrder K) (a b : K) : genDbKey p a < genDbKey p b ↔ a < b := by
  rw [genDbKey, genDbKey, append_lt_append_iff, hord a b]

theorem genDbKey_le_iff (hord : SameOrder K) (a b : K) : genDbKey p a ≤ genDbKey p b ↔ a ≤ b := by
  rw [← not_lt, genDbKey_lt_iff hord, not_lt]

theorem mem_records_genDbKey (hord : SameOrder K) {bound : Bound K} {key : K} {w : Bytes} :
    (genDbKey p key, w) ∈ bound.records p acc.db ↔
      (genDbKey p key, w) ∈ acc.db.entries ∧ bound.Mem key := by
  cases bound with
  | all =>
    rw [Bound.records, SortedMap.mem_lowerBound]
    exact and_congr_right fun _ => iff_true_intro (le_append _ _)
  | ge a =>
    rw [Bound.records, SortedMap.mem_lowerBound, genDbKey_le_iff hord]
    rfl
  | gt a =>
    rw [Bound.records, SortedMap.mem_upperBound, genDbKey_lt_iff hord]
    rfl

variable [LawfulSerial K] [LawfulSerial V]

theorem mem_dbEntries (hp : p.InUse) (hord : SameOrder K) (hdb : WellStored K V acc p)
    {bound : Bound K} {key : K} {value : V} :
    (key, value) ∈ dbEntries p (bound.records p acc.db) ↔
      acc.db.find? (genDbKey p key) = some (ser value) ∧ bound.Mem key := by
  rw [mem_dbEntries_iff hp hdb, SortedMap.find?_eq_some_iff, mem_records_genDbKey hord]

theorem ascending_dbEntries (hp : p.InUse) (hord : SameOrder K) (hdb : WellStored K V acc p)
    (bound : Bound K) : Ascending (dbEntries (K := K) (V := V) p (bound.records p acc.db)) :=
  (pairwise_dbEntries hp hdb bound).imp fun {_ _} h => (genDbKey_lt_iff hord _ _).mp h

omit [LinearOrder K] [LawfulSerial K] in
theorem getData_eq_some_iff (hdb : WellStored K V acc p) {key : K} {value : V} :
    acc.getData p key = some value ↔ acc.db.find? (genDbKey p key) = some (ser value) := by
  unfold CDBAccess.getData readDb
  constructor
  · intro h
    obtain ⟨w, hw, hval⟩ := Option.bind_eq_some_iff.mp h
    obtain ⟨k', v', hr⟩ := hdb _ (SortedMap.find?_eq_some_iff.mp hw) (List.prefix_append _ _)
    obtain rfl : w = ser v' := congrArg Prod.snd hr
    rw [LawfulSerial.unser_ser] at hval
    rw [hw, ← Option.some.inj hval]
  · intro h
    rw [h, Option.bind_some, LawfulSerial.unser_ser]
    rfl

end Records

section WellStored

variable {K V : Type} [Serial K] [Serial V] [DbUtil V] {acc : CDBAccess} {p : PrefixType}

theorem forall_record_writeBatch {P : Bytes × Bytes → Prop} {l : List (K × V)}
    (hput : ∀ e ∈ l, isEmpty e.2 = false → P (genDbKey p e.1, ser e.2)) (h : ∀ r ∈ acc.db.entries, P r) :
    ∀ r ∈ (acc.writeBatch (l.map fun e => batchEntry (genDbKey p e.1) e.2)).db.entries, P r := by
  have key : ∀ db : LevelDb, (∀ r ∈ db.entries, P r) →
      ∀ r ∈ ((l.map fun e => batchEntry (genDbKey p e.1) e.2).foldl BatchOp.apply db).entries, P r := by
    induction l with
    | nil => exact fun _ h => h
    | cons e l ih =>
      refine fun db h => ih (fun e he => hput e (List.mem_cons_of_mem _ he)) _ fun r hr => ?_
      simp only at hr
      cases he : isEmpty e.2 with
      | true =>
        rw [show batchEntry (genDbKey p e.1) e.2 = .delete _ from if_pos he] at hr
        exact h r (List.mem_filter.mp hr).1
      | false =>
        rw [show batchEntry (genDbKey p e.1) e.2 = .put _ _ from if_neg (by simp [he])] at hr
        rcases SortedMap.mem_insertEntry hr with rfl | hr
        · exact hput e List.mem_cons_self he
        · exact h r hr
  exact key acc.db h

/-- **A flush keeps the database well stored.** -/
theorem wellStored_flush [LinearOrder K] (hdb : WellStored K V acc p) (s : CacheStack K V) :
    WellStored K V (CacheStack.flush acc p s).1 p := by
  match s with
  | [] | _ :: _ :: _ => exact hdb
  | [c] => exact forall_record_writeBatch (fun e _ _ _ => ⟨e.1, e.2, rfl⟩) hdb

/-- Every record of the prefix is one that a flush writes, with a value that is not empty. -/
def StoredLive (K V : Type) [Serial K] [Serial V] [DbUtil V] (acc : CDBAccess) (p : PrefixType) : Prop :=
  ∀ record ∈ acc.db.entries, getKeyPrefix p <+: record.1 →
    ∃ (key : K) (value : V), record = (genDbKey p key, ser value) ∧ isEmpty value = false

theorem StoredLive.wellStored (hdb : StoredLive K V acc p) : WellStored K V acc p := fun r hr hpre =>
  let ⟨key, value, heq, _⟩ := hdb r hr hpre
  ⟨key, value, heq⟩

theorem StoredLive.isEmpty_eq_false [LawfulSerial V] (hdb : StoredLive K V acc p) {key : K} {value : V}
    (h : acc.getData p key = some value) : isEmpty value = false := by
  rw [getData_eq_some_iff hdb.wellStored, SortedMap.find?_eq_some_iff] at h
  obtain ⟨key', value', heq, hlive⟩ := hdb _ h (List.prefix_append _ _)
  rwa [ser_injective (congrArg Prod.snd heq)]

/-- **A flush erases what is empty.** -/
theorem storedLive_flush [LinearOrder K] (hdb : StoredLive K V acc p) (s : CacheStack K V) :
    StoredLive K V (CacheStack.flush acc p s).1 p := by
  match s with
  | [] | _ :: _ :: _ => exact hdb
  | [c] => exact forall_record_writeBatch (fun e _ he _ => ⟨e.1, e.2, rfl, he⟩) hdb

end WellStored

/-! ## The stack -/

section Stack

variable {K V : Type} [LinearOrder K]

theorem Bound.ascending_from (m : SortedMap K V) (bound : Bound K) : Ascending (bound.from m) := by
  cases bound with
  | all => exact m.ascending
  | ge a => exact m.ascending_lowerBound a
  | gt a => exact m.ascending_upperBound a

theorem lookup_filter {l : List (K × V)} (hl : Ascending l) (q : K × V → Bool) (key : K) :
    lookup key (l.filter q) = (lookup key l).filter fun value => q (key, value) := by
  refine Option.ext fun value => ?_
  rw [(hl.filter q).lookup_eq_some_iff, List.mem_filter, Option.filter_eq_some_iff,
    hl.lookup_eq_some_iff]

theorem lookup_from (m : SortedMap K V) (bound : Bound K) (key : K) [Decidable (bound.Mem key)] :
    lookup key (bound.from m) = if bound.Mem key then m.find? key else none := by
  have hmem : ∀ value, (key, value) ∈ bound.from m ↔ (key, value) ∈ m.entries ∧ bound.Mem key := by
    intro value
    cases bound with
    | all => exact (and_iff_left trivial).symm
    | ge a => exact SortedMap.mem_lowerBound
    | gt a => exact SortedMap.mem_upperBound
  refine Option.ext fun value => ?_
  rw [(bound.ascending_from m).lookup_eq_some_iff, hmem]
  split_ifs with h
  · rw [and_iff_left h, SortedMap.find?_eq_some_iff]
  · simp [h]

variable [Serial K] [LawfulSerial K] [DbUtil K] [Serial V] [LawfulSerial V] [DbUtil V]
  {acc : CDBAccess} {p : PrefixType}

omit [DbUtil K] [DbUtil V] in
theorem lookup_dbEntries (hp : p.InUse) (hord : SameOrder K) (hdb : WellStored K V acc p)
    (bound : Bound K) (key : K) [Decidable (bound.Mem key)] :
    lookup key (dbEntries (K := K) (V := V) p (bound.records p acc.db)) =
      if bound.Mem key then acc.getData p key else none := by
  refine Option.ext fun value => ?_
  rw [(ascending_dbEntries hp hord hdb bound).lookup_eq_some_iff, mem_dbEntries hp hord hdb,
    ← getData_eq_some_iff hdb]
  split_ifs with h
  · exact and_iff_left h
  · simp [h]

omit [DbUtil K] in
/-- **Level by level, the list of a walk is the view within its bound**, in ascending order. -/
theorem live_lookup_stackStream (hp : p.InUse) (hord : SameOrder K) (hdb : WellStored K V acc p)
    (bound : Bound K) (s : CacheStack K V) : Ascending (stackStream acc p s bound) ∧
      ∀ (key : K) [Decidable (bound.Mem key)], live (lookup key (stackStream acc p s bound)) =
        if bound.Mem key then CacheStack.view acc p s key else none := by
  induction s with
  | nil =>
    refine ⟨ascending_dbEntries hp hord hdb bound, fun key _ => ?_⟩
    rw [stackStream, lookup_dbEntries hp hord hdb bound key]
    split_ifs <;> rfl
  | cons c s ih =>
    obtain ⟨hasc, hlookup⟩ := ih
    have hfrom := bound.ascending_from c.mapData
    have hover := ascending_overlay hfrom hasc
    refine ⟨hover.filter _, fun key _ => ?_⟩
    have hlive : lookup key (stackStream acc p (c :: s) bound) =
        live ((lookup key (bound.from c.mapData)).or (lookup key (stackStream acc p s bound))) := by
      rw [stackStream, liveEntries, lookup_filter hover, lookup_overlay hfrom hasc]
      rfl
    rw [hlive, live_live, lookup_from]
    split_ifs with h
    · have hbase := hlookup key
      rw [if_pos h] at hbase
      cases hc : c.mapData.find? key with
      | some value => rw [Option.some_or, CacheStack.view_cons_of_some acc p hc]
      | none => rw [Option.none_or, hbase, CacheStack.view_cons_of_none acc p hc]
    · have hbase := hlookup key
      rw [if_neg h] at hbase
      rw [Option.none_or, hbase]

omit [DbUtil K] in
theorem mem_stackStream (hp : p.InUse) (hord : SameOrder K) (hdb : WellStored K V acc p)
    (bound : Bound K) (c : IneryCompositeKVCache K V) (s : CacheStack K V) {key : K} {value : V} :
    (key, value) ∈ stackStream acc p (c :: s) bound ↔
      CacheStack.view acc p (c :: s) key = some value ∧ bound.Mem key := by
  classical
  obtain ⟨hasc, hlookup⟩ := live_lookup_stackStream hp hord hdb bound (c :: s)
  have hlive : ∀ e ∈ stackStream acc p (c :: s) bound, isEmpty e.2 = false := by
    intro e he
    simpa [stackStream, liveEntries] using (List.mem_filter.mp he).2
  rw [← hasc.lookup_eq_some_iff]
  have hkey := hlookup key
  constructor
  · intro h
    have hval := hlive _ (hasc.lookup_eq_some_iff.mp h)
    rw [h, live_of_not_isEmpty hval] at hkey
    split_ifs at hkey with hb
    exact ⟨hkey.symm, hb⟩
  · rintro ⟨hview, hb⟩
    rw [if_pos hb, hview] at hkey
    exact (live_eq_some_iff.mp hkey).1

/-- **A walk enumerates the view.** Over any stack and any database whose records of the prefix were
written by it, and from whatever state the iterator is in: `First`, `Seek` and `SeekUpper` followed
by `Next` until the iterator is invalid give the keys with a live value in the view that are all,
not below, or above the key, with these values, in strictly ascending order. The keys are ordered
like their serializations, and the empty key is the least and never stored. -/
theorem iterator_enumerates_view (hp : p.InUse) (hord : SameOrder K) (hdb : WellStored K V acc p)
    (c : IneryCompositeKVCache K V) (s : CacheStack K V)
    (hleast : ∀ a : K, isEmpty a = true → ∀ key : K, a ≤ key)
    (hstored : ∀ a : K, isEmpty a = true → CacheStack.find acc p (c :: s) a = none)
    (start : Start K) (st : (CacheStack.create acc p (c :: s)).State) :
    ∃ entries, (CacheStack.create acc p (c :: s)).walk start st = some entries ∧
      entries.Pairwise (fun e e' => e.1 < e'.1) ∧ ∀ key value, (key, value) ∈ entries ↔
        CacheStack.view acc p (c :: s) key = some value ∧ start.Admits key := by
  refine ⟨_, CacheStack.walk_create hp hdb (c :: s) start st,
    (live_lookup_stackStream hp hord hdb start.bound (c :: s)).1, fun key value => ?_⟩
  rw [mem_stackStream hp hord hdb]
  refine and_congr_right fun hview => ?_
  have hne : isEmpty key = false := by
    cases he : isEmpty key with
    | false => rfl
    | true =>
      rw [CacheStack.view, hstored key he, live_none] at hview
      exact absurd hview.symm (Option.some_ne_none _)
  cases start with
  | first => exact Iff.rfl
  | seek pKey =>
    cases pKey with
    | none => exact Iff.rfl
    | some a =>
      simp only [Start.bound]
      split_ifs with he
      · exact iff_of_true trivial (hleast a he key)
      · exact Iff.rfl
  | seekUpper pKey =>
    cases pKey with
    | none => exact Iff.rfl
    | some a =>
      simp only [Start.bound]
      split_ifs with he
      · exact iff_of_true trivial (lt_of_le_of_ne (hleast a he key) fun e => by simp [← e, he] at hne)
      · exact Iff.rfl

theorem sameOrder_byte : SameOrder Byte := fun a b => by
  simp [ser, List.cons_lt_cons_iff]

/-- A deletion over a live entry, an entry under it, and a record of the database. -/
theorem iterator_enumerates_view_byte :
    let c : IneryCompositeKVCache Byte Byte := ⟨((∅ : SortedMap _ _).insert 1 5).insert 2 0, false, 0⟩
    let b : IneryCompositeKVCache Byte Byte :=
      ⟨((∅ : SortedMap _ _).insert 2 7).insert 3 9, true, 4⟩
    let acc : CDBAccess := ⟨.account, (∅ : LevelDb).insert (genDbKey .keyidAccount (4 : Byte)) [8]⟩
    ∃ entries, (CacheStack.create acc .keyidAccount [c, b]).walk (.seekUpper (some 1))
        (CacheStack.create acc .keyidAccount [c, b]).init = some entries ∧
      (2, 7) ∉ entries ∧ (3, 9) ∈ entries ∧ (4, 8) ∈ entries := by
  intro c b acc
  have hdb : WellStored Byte Byte acc .keyidAccount := by
    intro r hr _
    obtain rfl : r = (genDbKey .keyidAccount (4 : Byte), [8]) := List.mem_singleton.mp hr
    exact ⟨4, 8, rfl⟩
  obtain ⟨entries, hwalk, -, hmem⟩ := iterator_enumerates_view (by decide) sameOrder_byte hdb c [b]
    (fun a ha key => by rw [eq_of_beq ha]; exact Fin.zero_le key)
    (fun a ha => by rw [eq_of_beq ha]; decide)
    (.seekUpper (some 1)) (CacheStack.create acc .keyidAccount [c, b]).init
  refine ⟨entries, hwalk, ?_, ?_, ?_⟩
  · rw [hmem]
    exact fun h => absurd h.1 (by decide)
  · exact (hmem 3 9).mpr ⟨by decide, show (1 : Byte) < 3 by decide⟩
  · exact (hmem 4 8).mpr ⟨by decide, show (1 : Byte) < 4 by decide⟩

end Stack

end Inery
