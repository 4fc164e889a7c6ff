import IneryPersistence.Iterator.Model
import IneryPersistence.Lib.Merge

/-!
# What an iterator yields

* `Enumerates`: from a state, `Next` gives the entries of a list one after the other;
* `Bound`, `dbEntries`, `stackStream`: the list that the iterator of a stack gives from a start;
* `enumerates_processData`, `processLoop_enumerates`: one database cursor, and one merge of two;
* **`create_yields`**, **`walk_create`**: every walk gives the list of its start, and it ends.
-/

namespace Inery

open KV

/-! ## Enumeration -/

namespace CDBBaseIterator

variable {K V : Type} (it : CDBBaseIterator K V)

/-- From the state `st` on, the iterator gives the entries of the list and is then invalid. -/
def Enumerates : it.State → List (K × V) → Prop
  | st, [] => it.cur st = none
  | st, e :: l => it.cur st = some e ∧ l.length < it.remaining st ∧
      ∃ st', it.next st = some st' ∧ Enumerates st' l

variable {it}

theorem Enumerates.cur {st : it.State} {l : List (K × V)} (h : it.Enumerates st l) :
    it.cur st = l.head? := by
  cases l with
  | nil => exact h
  | cons e l => exact h.1

theorem Enumerates.length_le {st : it.State} {l : List (K × V)} (h : it.Enumerates st l) :
    l.length ≤ it.remaining st := by
  cases l with
  | nil => exact Nat.zero_le _
  | cons e l => exact h.2.1

theorem Enumerates.visited {st : it.State} {l : List (K × V)} (h : it.Enumerates st l) {n : ℕ}
    (hn : l.length < n) : it.visited n st = some l := by
  induction l generalizing st n with
  | nil =>
    obtain ⟨n, rfl⟩ := Nat.exists_eq_add_of_lt hn
    rw [CDBBaseIterator.visited, h.cur]
    rfl
  | cons e l ih =>
    obtain ⟨hcur, -, st', hnext, h'⟩ := h
    obtain ⟨n, rfl⟩ : ∃ m, n = m + 1 := ⟨n - 1, by simp only [List.length_cons] at hn; omega⟩
    have hlt : l.length < n := by
      simp only [List.length_cons] at hn
      omega
    rw [CDBBaseIterator.visited, hcur]
    simp [hnext, ih h' hlt]

end CDBBaseIterator

/-! ## The lists -/

/-- The keys that a walk gives. -/
inductive Bound (K : Type)
  | all
  | ge (key : K)
  | gt (key : K)

/-- The bound of a start: an empty key is no bound. -/
def Start.bound {K : Type} [DbUtil K] : Start K → Bound K
  | .first | .seek none | .seekUpper none => .all
  | .seek (some key) => if isEmpty key then .all else .ge key
  | .seekUpper (some key) => if isEmpty key then .all else .gt key

section Lists

variable {K V : Type} [LinearOrder K] [Serial K] [Serial V]

/-- The entries of a map from a bound on. -/
def Bound.from (m : SortedMap K V) : Bound K → List (K × V)
  | all => m.entries
  | ge key => m.lowerBound key
  | gt key => m.upperBound key

/-- The records of a database from a bound on. -/
def Bound.records (p : PrefixType) (db : LevelDb) : Bound K → List (Bytes × Bytes)
  | all => db.lowerBound (getKeyPrefix p)
  | ge key => db.lowerBound (genDbKey p key)
  | gt key => db.upperBound (genDbKey p key)

/-- The key and the value of a record. -/
def decodeRecord (p : PrefixType) (record : Bytes × Bytes) : Option (K × V) :=
  match parseDbKey (K := K) record.1 p with
  | some (some key) => (unser record.2).map fun value => (key, value.1)
  | _ => none

/-- The entries that a database iterator gives: those of its prefix, up to the first other record. -/
def dbEntries (p : PrefixType) (records : List (Bytes × Bytes)) : List (K × V) :=
  (records.takeWhile fun record => (getKeyPrefix p).isPrefixOf record.1).filterMap (decodeRecord p)

variable [DbUtil V]

/-- The entries with a value that is not empty. -/
def liveEntries (l : List (K × V)) : List (K × V) := l.filter fun e => !isEmpty e.2

/-- **The entries that the iterator of a stack gives.** -/
def stackStream (acc : CDBAccess) (p : PrefixType) : CacheStack K V → Bound K → List (K × V)
  | [], bound => dbEntries p (bound.records p acc.db)
  | c :: s, bound => liveEntries (overlay (bound.from c.mapData) (stackStream acc p s bound))

/-- Every record of the prefix is one that a flush writes. -/
def WellStored (K V : Type) [Serial K] [Serial V] (acc : CDBAccess) (p : PrefixType) : Prop :=
  ∀ record ∈ acc.db.entries, getKeyPrefix p <+: record.1 →
    ∃ (key : K) (value : V), record = (genDbKey p key, ser value)

end Lists

/-! ## The database iterator -/

namespace CDBAccessIterator

variable {K V : Type} [LinearOrder K] [Serial K] [LawfulSerial K] [DbUtil K] [Serial V]
  [LawfulSerial V] {acc : CDBAccess} {p : PrefixType}

omit [LinearOrder K] [DbUtil K] in
theorem decodeRecord_genDbKey (hp : p.InUse) (key : K) (value : V) :
    decodeRecord p (genDbKey p key, ser value) = some (key, value) := by
  simp [decodeRecord, parseDbKey_genDbKey hp, LawfulSerial.unser_ser]

omit [LinearOrder K] in
/-- **A cursor of the database** gives the entries of the records from its position on. -/
theorem enumerates_processData (acc : CDBAccess) (hp : p.InUse) {records : List (Bytes × Bytes)}
    (hrec : ∀ record ∈ records, getKeyPrefix p <+: record.1 →
      ∃ (key : K) (value : V), record = (genDbKey p key, ser value)) :
    ∃ st, processData (K := K) (V := V) p records = some st ∧
      (toBase acc p).Enumerates st (dbEntries p records) ∧ st.pDbIt = records := by
  induction records with
  | nil => exact ⟨⟨[], none⟩, rfl, rfl, rfl⟩
  | cons record records ih =>
    by_cases hpre : getKeyPrefix p <+: record.1
    · obtain ⟨key, value, rfl⟩ := hrec _ List.mem_cons_self hpre
      obtain ⟨st', hst', h', hrest⟩ := ih fun r hr => hrec r (List.mem_cons_of_mem _ hr)
      have hpre' : (getKeyPrefix p).isPrefixOf (genDbKey p key) = true :=
        List.isPrefixOf_iff_prefix.mpr hpre
      refine ⟨⟨_, some (key, value)⟩, ?_, ?_, rfl⟩
      · simp [processData, hpre', parseDbKey_genDbKey hp, LawfulSerial.unser_ser]
      · have hcons : dbEntries (K := K) (V := V) p ((genDbKey p key, ser value) :: records) =
            (key, value) :: dbEntries p records := by
          rw [dbEntries, List.takeWhile_cons, if_pos hpre',
            List.filterMap_cons_some (decodeRecord_genDbKey hp key value), dbEntries]
        rw [hcons]
        refine ⟨rfl, ?_, st', hst', h'⟩
        have hlen := h'.length_le
        simp only [toBase, hrest] at hlen
        simp only [toBase, List.length_cons]
        omega
    · have hpre' : (getKeyPrefix p).isPrefixOf record.1 = false := by
        rw [Bool.eq_false_iff, ne_eq, List.isPrefixOf_iff_prefix]
        exact hpre
      refine ⟨⟨record :: records, none⟩, ?_, ?_, rfl⟩
      · simp [processData, hpre']
      · rw [dbEntries, List.takeWhile_cons, if_neg (by simp [hpre'])]
        rfl

omit [LinearOrder K] [LawfulSerial K] [LawfulSerial V] in
theorem seekUpper_eq {key : K} (hkey : isEmpty key = false) :
    seekUpper (V := V) acc p (some key) = processData p (acc.db.upperBound (genDbKey p key)) := by
  rw [SortedMap.upperBound_eq]
  simp only [seekUpper, hkey]
  cases acc.db.lowerBound (genDbKey p key) with
  | nil => rfl
  | cons record records =>
    by_cases h : record.1 = genDbKey p key
    · simp only [if_pos h]
      rfl
    · simp only [if_neg h]
      rfl

omit [LinearOrder K] in
theorem yields (hp : p.InUse) (hdb : WellStored K V acc p) (start : Start K)
    (st : CDBAccessIterator K V) : ∃ st', (toBase acc p).begin start st = some st' ∧
      (toBase acc p).Enumerates st' (dbEntries p (start.bound.records p acc.db)) := by
  have hrec : ∀ records : List (Bytes × Bytes), (∀ r ∈ records, r ∈ acc.db.entries) →
      ∃ st', processData (K := K) (V := V) p records = some st' ∧
        (toBase acc p).Enumerates st' (dbEntries p records) := by
    intro records hsub
    obtain ⟨st', hst', h', -⟩ := enumerates_processData acc hp fun r hr => hdb r (hsub r hr)
    exact ⟨st', hst', h'⟩
  have hlower : ∀ k, ∀ r ∈ acc.db.lowerBound k, r ∈ acc.db.entries := fun k r hr =>
    (SortedMap.mem_lowerBound.mp hr).1
  have hfirst := hrec _ (hlower (getKeyPrefix p))
  cases start with
  | first => exact hfirst
  | seek pKey =>
    cases pKey with
    | none => exact hfirst
    | some key =>
      simp only [CDBBaseIterator.begin, toBase, seek, Start.bound]
      split_ifs
      · exact hfirst
      · exact hrec _ (hlower (genDbKey p key))
  | seekUpper pKey =>
    cases pKey with
    | none => exact hfirst
    | some key =>
      cases hkey : isEmpty key with
      | true =>
        simp only [CDBBaseIterator.begin, toBase, seekUpper, Start.bound, hkey, if_true]
        exact hfirst
      | false =>
        simp only [CDBBaseIterator.begin, toBase, Start.bound, hkey, seekUpper_eq hkey]
        exact hrec _ fun r hr => (SortedMap.mem_upperBound.mp hr).1

end CDBAccessIterator

/-! ## The merging iterator -/

namespace CDBCacheIteratorImpl

variable {K V : Type} [LinearOrder K] [DbUtil K] [DbUtil V] {base : CDBBaseIterator K V}

/-- Where the two cursors stand. -/
def At (it : CDBCacheIteratorImpl K V base.State) (m b : List (K × V)) : Prop :=
  it.spMapIt.mapIt = m ∧ base.Enumerates it.spBaseIt b

omit [DbUtil K] [DbUtil V] in
theorem processGetData_frame (it : CDBCacheIteratorImpl K V base.State) :
    (processGetData base it).spMapIt = it.spMapIt ∧ (processGetData base it).spBaseIt = it.spBaseIt ∧
      (processGetData base it).isValid = it.isValid := by
  unfold processGetData
  split
  · split_ifs <;> exact ⟨rfl, rfl, rfl⟩
  · exact ⟨rfl, rfl, rfl⟩
  · exact ⟨rfl, rfl, rfl⟩

omit [DbUtil K] [DbUtil V] in
/-- What `ProcessGetData` says about the next step: the entry it chose, and where `InternalNext`
takes the cursors from any iterator with its flags. -/
theorem processGetData_advance {it : CDBCacheIteratorImpl K V base.State} {m b : List (K × V)}
    (h : it.At m b) (hne : m ≠ [] ∨ b ≠ []) :
    ∃ e m' b', overlay m b = e :: overlay m' b' ∧ m'.length + b'.length < m.length + b.length ∧
      (processGetData base it).spData = some e ∧
        ∀ it₁ : CDBCacheIteratorImpl K V base.State, it₁.spMapIt = it.spMapIt →
          it₁.spBaseIt = it.spBaseIt → it₁.isMapData = (processGetData base it).isMapData →
          it₁.isSameKey = (processGetData base it).isSameKey →
            ∃ it₂, internalNext base it₁ = some it₂ ∧ it₂.At m' b' := by
  obtain ⟨hm, hb⟩ := h
  cases m with
  | nil =>
    cases b with
    | nil => simp at hne
    | cons eb b =>
      obtain ⟨hcur, hlen, st', hnext, hb'⟩ := hb
      have hmap : it.spMapIt.cur = none := by simp [CCacheMapIterator.cur, hm]
      refine ⟨eb, [], b, by simp, by simp, by simp [processGetData, hmap, hcur], ?_⟩
      intro it₁ h₁ h₂ h₃ h₄
      refine ⟨{ it₁ with spBaseIt := st' }, ?_, by rw [h₁, hm], hb'⟩
      simp [internalNext, h₂, h₃, processGetData, hmap, hnext]
  | cons em m =>
    have hmap : it.spMapIt.cur = some em := by simp [CCacheMapIterator.cur, hm]
    have hmapNext : it.spMapIt.next = some ⟨m⟩ := by simp [CCacheMapIterator.next, hm]
    cases b with
    | nil =>
      have hcur : base.cur it.spBaseIt = none := hb
      refine ⟨em, m, [], by simp, by simp, by simp [processGetData, hmap, hcur], ?_⟩
      intro it₁ h₁ h₂ h₃ h₄
      refine ⟨{ it₁ with spMapIt := ⟨m⟩ }, ?_, rfl, by rw [h₂]; exact hb⟩
      simp [internalNext, h₁, h₃, h₄, processGetData, hmap, hcur, hmapNext]
    | cons eb b =>
      have hb' := hb
      obtain ⟨hcur, hlen, st', hnext, hb'⟩ := hb'
      obtain ⟨mk, mv⟩ := em
      obtain ⟨bk, bv⟩ := eb
      rw [overlay_cons_cons]
      by_cases hlt : bk < mk
      · rw [if_pos hlt]
        refine ⟨(bk, bv), (mk, mv) :: m, b, rfl, by simp, by simp [processGetData, hmap, hcur, hlt], ?_⟩
        intro it₁ h₁ h₂ h₃ h₄
        refine ⟨{ it₁ with spBaseIt := st' }, ?_, by rw [h₁, hm], hb'⟩
        simp [internalNext, h₂, h₃, processGetData, hmap, hcur, hlt, hnext]
      · rw [if_neg hlt]
        by_cases hgt : mk < bk
        · rw [if_pos hgt]
          refine ⟨(mk, mv), m, (bk, bv) :: b, rfl, by simp,
            by simp [processGetData, hmap, hcur, hlt, hgt], ?_⟩
          intro it₁ h₁ h₂ h₃ h₄
          refine ⟨{ it₁ with spMapIt := ⟨m⟩ }, ?_, rfl, by rw [h₂]; exact hb⟩
          simp [internalNext, h₁, h₃, h₄, processGetData, hmap, hcur, hlt, hgt, hmapNext]
        · rw [if_neg hgt]
          refine ⟨(mk, mv), m, b, rfl, by simp only [List.length_cons]; omega,
            by simp [processGetData, hmap, hcur, hlt, hgt], ?_⟩
          intro it₁ h₁ h₂ h₃ h₄
          refine ⟨{ it₁ with spMapIt := ⟨m⟩, spBaseIt := st' }, ?_, rfl, hb'⟩
          simp [internalNext, h₁, h₂, h₃, h₄, processGetData, hmap, hcur, hlt, hgt, hmapNext, hnext]

omit [DbUtil K] in
theorem length_liveEntries_overlay_le (m b : List (K × V)) :
    (liveEntries (overlay m b)).length ≤ m.length + b.length :=
  (List.length_filter_le _ _).trans (length_overlay_le m b)

omit [LinearOrder K] [DbUtil K] [DbUtil V] in
theorem remaining_eq {it : CDBCacheIteratorImpl K V base.State} {m b : List (K × V)} (h : it.At m b) :
    m.length + b.length ≤ remaining base it := by
  have hle := h.2.length_le
  rw [remaining, h.1]
  omega

omit [DbUtil K] in
theorem processLoop_live {it g : CDBCacheIteratorImpl K V base.State} {e : K × V} (n : ℕ)
    (hvalid : it.isValid = true) (hg : processGetData base it = g) (hdata : g.spData = some e)
    (he : isEmpty e.2 = false) :
    processLoop base (n + 1) it = some { g with count := g.count + 1 } := by
  subst hg
  simp [processLoop, hvalid, hdata, he]

omit [DbUtil K] in
theorem processLoop_empty {it g : CDBCacheIteratorImpl K V base.State} {e : K × V} (n : ℕ)
    (hvalid : it.isValid = true) (hg : processGetData base it = g) (hdata : g.spData = some e)
    (he : isEmpty e.2 = true) : processLoop base (n + 1) it =
      (internalNext base g).bind fun it => processLoop base n (checkValid base it) := by
  subst hg
  simp [processLoop, hvalid, hdata, he]

/-- **The loop of `ProcessData`** stops at the first live entry of the merged list, and from there
the iterator gives the live entries. -/
theorem processLoop_enumerates (mapData : SortedMap K V) {it : CDBCacheIteratorImpl K V base.State}
    {m b : List (K × V)} (h : it.At m b) {n : ℕ} (hn : m.length + b.length < n) :
    ∃ it', processLoop base n (checkValid base it) = some it' ∧
      (toBase mapData base).Enumerates it' (liveEntries (overlay m b)) := by
  induction hk : m.length + b.length using Nat.strong_induction_on generalizing it m b n with
  | _ k ih =>
    obtain ⟨n, rfl⟩ : ∃ n', n = n' + 1 := ⟨n - 1, by omega⟩
    by_cases hne : m ≠ [] ∨ b ≠ []
    · have hvalid : (checkValid base it).isValid = true := by
        have hcur := h.2.cur
        rcases hne with hne | hne
        · obtain ⟨e, l, rfl⟩ := List.exists_cons_of_ne_nil hne
          simp [checkValid, CCacheMapIterator.cur, h.1]
        · obtain ⟨e, l, rfl⟩ := List.exists_cons_of_ne_nil hne
          simp [checkValid, hcur]
      obtain ⟨e, m', b', hover, hlt, hdata, hnext⟩ :=
        processGetData_advance (show (checkValid base it).At m b from h) hne
      obtain ⟨hmap, hbase, hval⟩ := processGetData_frame (checkValid base it)
      generalize hg : processGetData base (checkValid base it) = g at *
      cases he : isEmpty e.2 with
      | true =>
        -- an empty value is passed over: the loop goes on with the rest of the merged list
        obtain ⟨it₂, hit₂, hat⟩ := hnext g hmap hbase rfl rfl
        obtain ⟨it', hit', henum⟩ := ih _ (hk ▸ hlt) hat (n := n) (by omega) rfl
        refine ⟨it', ?_, ?_⟩
        · rw [processLoop_empty n hvalid hg hdata he, hit₂]
          exact hit'
        · rw [hover, liveEntries, List.filter_cons_of_neg (by simp [he])]
          exact henum
      | false =>
        obtain ⟨it₂, hit₂, hat⟩ := hnext { g with count := g.count + 1 } hmap hbase rfl rfl
        have hrem₂ := remaining_eq hat
        obtain ⟨it', hit', henum⟩ := ih _ (hk ▸ hlt) hat (n := remaining base it₂ + 1) (by omega) rfl
        refine ⟨_, processLoop_live n hvalid hg hdata he, ?_⟩
        rw [hover, liveEntries, List.filter_cons_of_pos (by simp [he])]
        refine ⟨?_, ?_, it', ?_, henum⟩
        · simp [toBase, hval, hvalid, hdata]
        · have hle := length_liveEntries_overlay_le m' b'
          have hrem := remaining_eq h
          have heq : remaining base { g with count := g.count + 1 } = remaining base it := by
            simp only [remaining, hmap, hbase]
            rfl
          exact lt_of_le_of_lt hle (lt_of_lt_of_le hlt (hrem.trans heq.ge))
        · show (internalNext base { g with count := g.count + 1 }).bind (processData base) = some it'
          rw [hit₂]
          exact hit'
    · obtain ⟨hm, hb⟩ := not_or.mp hne
      obtain rfl := not_not.mp hm
      obtain rfl := not_not.mp hb
      have hinvalid : (checkValid base it).isValid = false := by
        simp [checkValid, CCacheMapIterator.cur, h.1, h.2.cur]
      refine ⟨checkValid base it, by simp [processLoop, hinvalid], ?_⟩
      rw [overlay_nil_left]
      simp [liveEntries, CDBBaseIterator.Enumerates, toBase, hinvalid]

theorem processData_enumerates (mapData : SortedMap K V) {it : CDBCacheIteratorImpl K V base.State}
    {m b : List (K × V)} (h : it.At m b) : ∃ it', processData base it = some it' ∧
      (toBase mapData base).Enumerates it' (liveEntries (overlay m b)) :=
  processLoop_enumerates mapData h (Nat.lt_succ_of_le (remaining_eq h))

theorem yields (mapData : SortedMap K V) (stream : Bound K → List (K × V))
    (hbase : ∀ (start : Start K) (st : base.State), ∃ st', base.begin start st = some st' ∧
      base.Enumerates st' (stream start.bound)) (start : Start K)
    (it : CDBCacheIteratorImpl K V base.State) :
    ∃ it', (toBase mapData base).begin start it = some it' ∧ (toBase mapData base).Enumerates it'
      (liveEntries (overlay (start.bound.from mapData) (stream start.bound))) := by
  have hmove : ∀ (start' : Start K) (m : CCacheMapIterator K V),
      m.mapIt = start'.bound.from mapData →
      ∃ it', move base it m (base.begin start' it.spBaseIt) = some it' ∧
        (toBase mapData base).Enumerates it'
          (liveEntries (overlay (start'.bound.from mapData) (stream start'.bound))) := by
    intro start' m hm
    obtain ⟨st', hst', henum⟩ := hbase start' it.spBaseIt
    rw [move, hst']
    exact processData_enumerates mapData ⟨hm, henum⟩
  have hfirst := hmove .first (CCacheMapIterator.first mapData) rfl
  cases start with
  | first => exact hfirst
  | seek pKey =>
    cases pKey with
    | none => exact hfirst
    | some key =>
      have hseek := hmove (.seek (some key)) (CCacheMapIterator.seek mapData (some key))
      cases hkey : isEmpty key with
      | true =>
        simp only [CDBBaseIterator.begin, toBase, seek, Start.bound, hkey, if_true]
        exact hfirst
      | false =>
        simp only [Start.bound, hkey, CCacheMapIterator.seek] at hseek
        simp only [CDBBaseIterator.begin, toBase, seek, Start.bound, hkey, CCacheMapIterator.seek]
        exact hseek rfl
  | seekUpper pKey =>
    cases pKey with
    | none => exact hfirst
    | some key =>
      have hseek := hmove (.seekUpper (some key)) (CCacheMapIterator.seekUpper mapData (some key))
      cases hkey : isEmpty key with
      | true =>
        simp only [CDBBaseIterator.begin, toBase, seekUpper, Start.bound, hkey, if_true]
        exact hfirst
      | false =>
        simp only [Start.bound, hkey, CCacheMapIterator.seekUpper] at hseek
        simp only [CDBBaseIterator.begin, toBase, seekUpper, Start.bound, hkey,
          CCacheMapIterator.seekUpper]
        exact hseek rfl

end CDBCacheIteratorImpl

/-! ## Stacks -/

namespace CacheStack

variable {K V : Type} [LinearOrder K] [Serial K] [LawfulSerial K] [DbUtil K] [Serial V]
  [LawfulSerial V] [DbUtil V] {acc : CDBAccess} {p : PrefixType}

/-- **The iterator of a stack**, from any start and whatever it did before. -/
theorem create_yields (hp : p.InUse) (hdb : WellStored K V acc p) (s : CacheStack K V)
    (start : Start K) (st : (create acc p s).State) :
    ∃ st', (create acc p s).begin start st = some st' ∧
      (create acc p s).Enumerates st' (stackStream acc p s start.bound) := by
  induction s generalizing start with
  | nil => exact CDBAccessIterator.yields hp hdb start st
  | cons c s ih =>
    exact CDBCacheIteratorImpl.yields c.mapData (stackStream acc p s)
      (fun start st => ih start st) start st

/-- **A walk** ends, and gives the list of its start. -/
theorem walk_create (hp : p.InUse) (hdb : WellStored K V acc p) (s : CacheStack K V)
    (start : Start K) (st : (create acc p s).State) :
    (create acc p s).walk start st = some (stackStream acc p s start.bound) := by
  obtain ⟨st', hst', henum⟩ := create_yields hp hdb s start st
  rw [CDBBaseIterator.walk, hst']
  exact henum.visited (Nat.lt_succ_of_le henum.length_le)

end CacheStack

end Inery
