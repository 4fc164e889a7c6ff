import IneryPersistence.Cache.SameRecords
import IneryPersistence.Iterator.Model
import IneryPersistence.Lib.Runs
import IneryPersistence.Db.TailKey

/-!
# Prefixes that share a database

* `parseDbKey_of_ne`: a key of another prefix is not read as one;
* `StandsOn`, `standsOn_run`: where a valid database iterator stands after any walk;
* **`prefixes_disjoint`**: all that keeps the records of two prefixes apart.
-/

namespace Inery

open KV

/-! ## Keys -/

theorem parseDbKey_of_ne {K L : Type} [Serial K] [Serial L] {p q : PrefixType} (hp : p.InUse)
    (hq : q.InUse) (hpq : p ≠ q) (key : K) : parseDbKey (K := L) (genDbKey p key) q = some none := by
  have hpre : (getKeyPrefix q).isPrefixOf (genDbKey p key) = false := by
    rw [Bool.eq_false_iff, ne_eq, List.isPrefixOf_iff_prefix]
    rintro ⟨t, ht⟩
    exact getKeyPrefix_append_ne hp hq hpq (ser key) t ht.symm
  simp [parseDbKey, hpre]

/-! ## The database iterator -/

namespace CDBAccessIterator

variable {K V : Type} [Serial K] [DbUtil K] [Serial V] (acc : CDBAccess) (q : PrefixType)

/-- A move of the iterator. -/
inductive Move (K : Type)
  | begin (start : Start K)
  | next

/-- One move; `none` when it throws, or goes on from behind the last record. -/
def step (it : CDBAccessIterator K V) : Move K → Option (CDBAccessIterator K V)
  | .begin start => (toBase acc q).begin start it
  | .next => next q it

/-- A valid iterator stands on a record of the prefix. -/
def StandsOn (it : CDBAccessIterator K V) : Prop :=
  it.cur.isSome → ∃ record ∈ it.pDbIt.head?, getKeyPrefix q <+: record.1

variable {acc q}

omit [DbUtil K] in
theorem standsOn_processData {pDbIt : List (Bytes × Bytes)} {it : CDBAccessIterator K V}
    (h : processData q pDbIt = some it) : StandsOn q it := by
  unfold processData at h
  split at h
  · obtain rfl := Option.some.inj h
    exact fun hcur => Bool.noConfusion hcur
  · next slKey slValue rest =>
    split_ifs at h with hpre
    · obtain rfl := Option.some.inj h
      exact fun hcur => Bool.noConfusion hcur
    · split at h
      · obtain ⟨value, -, rfl⟩ := Option.map_eq_some_iff.mp h
        refine fun _ => ⟨(slKey, slValue), rfl, List.isPrefixOf_iff_prefix.mp ?_⟩
        simpa using hpre
      · cases h

theorem standsOn_step {it it' : CDBAccessIterator K V} {move : Move K}
    (h : step acc q it move = some it') : StandsOn q it' := by
  cases move with
  | next =>
    change next q it = some it' at h
    unfold next at h
    split at h
    · cases h
    · exact standsOn_processData h
  | begin start =>
    cases start with
    | first => exact standsOn_processData h
    | seek pKey =>
      rcases pKey with _ | key
      · exact standsOn_processData h
      · simp only [step, CDBBaseIterator.begin, toBase, seek] at h
        split_ifs at h
        · exact standsOn_processData h
        · exact standsOn_processData h
    | seekUpper pKey =>
      rcases pKey with _ | key
      · exact standsOn_processData h
      · simp only [step, CDBBaseIterator.begin, toBase, seekUpper] at h
        split at h
        · exact standsOn_processData h
        · split at h
          · exact standsOn_processData h
          · exact standsOn_processData h

theorem standsOn_run {it : CDBAccessIterator K V} {moves : List (Move K)}
    (h : run (step acc q) ⟨[], none⟩ moves = some it) : StandsOn q it :=
  run_preserves (step acc q) (fun _ _ _ _ => standsOn_step) (fun hcur => Bool.noConfusion hcur) h

end CDBAccessIterator

/-! ## Two prefixes -/

/-- What keeps the records of two prefixes apart. -/
structure Apart (p q : PrefixType) : Prop where
  append_ne : ∀ s t, getKeyPrefix p ++ s ≠ getKeyPrefix q ++ t
  parseKeyPrefixType : parseKeyPrefixType (getKeyPrefix p) = p
  parseDbKey_self : ∀ (K : Type) [Serial K] [LawfulSerial K] (key : K),
    parseDbKey (genDbKey p key) p = some (some key)
  parseDbKey_other : ∀ (K L : Type) [Serial K] [Serial L] (key : K),
    parseDbKey (K := L) (genDbKey p key) q = some none
  flush : ∀ (K V : Type) [LinearOrder K] [Serial K] [DbUtil K] [Serial V] [DbUtil V] (acc : CDBAccess)
    (s : CacheStack K V), SameRecords q acc (s.flush acc p).1
  flushSingle : ∀ (V : Type) [Serial V] [DbUtil V] (acc : CDBAccess) (s : SimpleStack V),
    SameRecords q acc (s.flush acc p).1
  iterator : ∀ (K V : Type) [Serial K] [DbUtil K] [Serial V] (acc : CDBAccess)
    (moves : List (CDBAccessIterator.Move K)) (it : CDBAccessIterator K V),
    run (CDBAccessIterator.step acc q) ⟨[], none⟩ moves = some it → it.cur.isSome →
      ∃ record ∈ it.pDbIt.head?, ∀ s, record.1 ≠ getKeyPrefix p ++ s

/-- **Caches of different prefixes never touch each other's records.** -/
theorem prefixes_disjoint {p q : PrefixType} (hp : p.InUse) (hq : q.InUse) (hpq : p ≠ q) : Apart p q where
  append_ne := getKeyPrefix_append_ne hp hq hpq
  parseKeyPrefixType := parseKeyPrefixType_getKeyPrefix hp
  parseDbKey_self _ := parseDbKey_genDbKey hp
  parseDbKey_other _ _ := parseDbKey_of_ne hp hq hpq
  flush _ _ := sameRecords_flush hp hq hpq
  flushSingle _ := sameRecords_flushSingle hp hq hpq
  iterator _ _ _ _ _ _ _ it hrun hcur := by
    obtain ⟨record, hrecord, t, ht⟩ := CDBAccessIterator.standsOn_run hrun hcur
    refine ⟨record, hrecord, fun s hs => ?_⟩
    exact getKeyPrefix_append_ne hp hq hpq s t (hs.symm.trans ht.symm)

/-- The prefixes `cid` and `crid`, of different lengths. -/
theorem prefixes_disjoint_cdp : Apart .cdp .cdpRatioIndex :=
  prefixes_disjoint (by decide) (by decide) (by decide)

end Inery
