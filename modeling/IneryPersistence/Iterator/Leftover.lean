import IneryPersistence.Cache.Entries
import IneryPersistence.Lib.Disorder

/-!
# Records that an iterator should have passed over

The keys of the records may be in another order than those of the caches. A record that comes after a larger key is
then given although a cache has its key, with the value that it had before.

* `Precedes`, `RecordGiven`, `Leftover`: the records, the ones that a walk gives, and the ones it should not give;
* `leftover_iff`: which they are when no cache deletes anything;
* `ascending_stackStream_all`, `not_leftover`: records in the order of the caches;
* **`exists_stream`**, `mem_stackStream_all`: what a walk from the first key gives.
-/

namespace Inery

open KV

section Records

variable {K V : Type} [LinearOrder K] [Serial K] [Serial V]

/-- The record of `w` comes before that of `x`. -/
def Precedes (V : Type) [Serial V] (acc : CDBAccess) (p : PrefixType) (w x : K) : Prop :=
  (acc.getData (V := V) p w).isSome ∧ (acc.getData (V := V) p x).isSome ∧ genDbKey p w < genDbKey p x

variable [DbUtil V]

/-- A walk gives the record of the key: each cache that holds the key comes to it only after the walk of its base
has given an entry that is not below it. -/
def RecordGiven (acc : CDBAccess) (p : PrefixType) (s : CacheStack K V) (key : K) : Prop :=
  Given isEmpty (Precedes V acc p) (s.map fun c => c.mapData.find?) key

/-- A walk gives the record of a key that a cache holds. -/
def Leftover (acc : CDBAccess) (p : PrefixType) (s : CacheStack K V) (key : K) : Prop :=
  Held s key ∧ (acc.getData (V := V) p key).isSome ∧ RecordGiven acc p s key

variable {acc : CDBAccess} {p : PrefixType}

omit [Serial K] [Serial V] [DbUtil V] in
theorem pile_eq_none_iff {s : CacheStack K V} {key : K} :
    pile (s.map fun c => c.mapData.find?) (fun _ => none) key = none ↔ ¬Held s key := by
  induction s with
  | nil => simp [Held]
  | cons c s ih =>
    rw [held_cons, List.map_cons, pile_cons, override, Option.or_eq_none_iff, ih, not_or, Bool.not_eq_true,
      Option.isSome_eq_false_iff, Option.isNone_iff_eq_none]

theorem view_of_not_held {s : CacheStack K V} {key : K} (h : ¬Held s key) :
    CacheStack.view acc p s key = live (acc.getData p key) := by
  rw [CacheStack.view, CacheStack.find, pile_eq_or, pile_eq_none_iff.mpr h, Option.none_or]

theorem recordGiven_of_not_held {s : CacheStack K V} {key : K} (h : ¬Held s key) : RecordGiven acc p s key := by
  induction s with
  | nil => trivial
  | cons c s ih =>
    rw [held_cons, not_or] at h
    exact ⟨ih h.2, .inl (Option.not_isSome_iff_eq_none.mp h.1)⟩

variable [LawfulSerial K] [LawfulSerial V]

omit [LinearOrder K] [DbUtil V] in
theorem mem_dbEntries_all (hp : p.InUse) (hdb : WellStored K V acc p) {key : K} {value : V} :
    (key, value) ∈ dbEntries p ((Bound.all : Bound K).records p acc.db) ↔ acc.getData p key = some value := by
  rw [mem_dbEntries_iff hp hdb, getData_eq_some_iff hdb, SortedMap.find?_eq_some_iff, Bound.records,
    SortedMap.mem_lowerBound]
  exact and_iff_left (le_append _ _)

omit [LinearOrder K] [DbUtil V] in
theorem listedBy_dbEntries (hp : p.InUse) (hdb : WellStored K V acc p) :
    ListedBy (K := K) (V := V) (Precedes V acc p) (dbEntries p ((Bound.all : Bound K).records p acc.db)) where
  pairwise := (pairwise_dbEntries hp hdb .all).imp_of_mem fun {e e'} he he' hlt => by
    have hget := (mem_dbEntries_all hp hdb).mp (show (e.1, e.2) ∈ _ from he)
    have hget' := (mem_dbEntries_all hp hdb).mp (show (e'.1, e'.2) ∈ _ from he')
    exact ⟨by rw [hget]; rfl, by rw [hget']; rfl, hlt⟩
  irrefl _ h := lt_irrefl _ h.2.2
  trans _ _ _ h h' := ⟨h.1, h'.2.1, h.2.2.trans h'.2.2⟩
  mem _ _ h := by
    obtain ⟨v, hv⟩ := Option.isSome_iff_exists.mp h.1
    exact ⟨v, (mem_dbEntries_all hp hdb).mpr hv⟩

omit [LawfulSerial K] [LawfulSerial V] in
theorem stackStream_all_eq (s : CacheStack K V) : stackStream acc p s .all =
    layered isEmpty (s.map fun c => c.mapData.entries) (dbEntries p ((Bound.all : Bound K).records p acc.db)) := by
  induction s with
  | nil => rfl
  | cons c s ih =>
    rw [stackStream, ih]
    rfl

/-- **Records in the order of the keys** are walked in that order. -/
theorem ascending_stackStream_all (hp : p.InUse) (hdb : WellStored K V acc p)
    (hprec : ∀ w x : K, Precedes V acc p w x → w < x) (s : CacheStack K V) :
    Ascending (stackStream acc p s .all) := by
  induction s with
  | nil => exact (listedBy_dbEntries hp hdb).pairwise.imp fun {_ _} h => hprec _ _ h
  | cons c s ih => exact (ascending_overlay c.mapData.ascending ih).filter _

omit [LawfulSerial K] [LawfulSerial V] in
theorem not_leftover (hprec : ∀ w x : K, Precedes V acc p w x → w < x) (s : CacheStack K V) (key : K) :
    ¬Leftover acc p s key := by
  rintro ⟨⟨c, hc, hfind⟩, -, hgiven⟩
  rw [RecordGiven, given_iff fun ms _ => iff_false_intro (not_overtaken hprec ms key), or_false] at hgiven
  rw [hgiven _ (List.mem_map.mpr ⟨c, hc, rfl⟩)] at hfind
  exact absurd hfind Bool.false_ne_true

/-- **When no cache deletes anything**, a record is left over when a cache holds its key and the record of a larger
key comes before it. -/
theorem leftover_iff (hp : p.InUse) (hdb : WellStored K V acc p) {s : CacheStack K V}
    (hlive : ∀ c ∈ s, ∀ key v, c.mapData.find? key = some v → isEmpty v = false) (key : K) :
    Leftover acc p s key ↔ Held s key ∧ ∃ w, key < w ∧ Precedes V acc p w key := by
  have hms : ∀ m ∈ (s.map fun c => c.mapData.find?), ∀ key v, m key = some v → isEmpty v = false := by
    intro m hm
    obtain ⟨c, hc, rfl⟩ := List.mem_map.mp hm
    exact hlive c hc
  rw [Leftover, RecordGiven, given_iff fun ms hsuffix => overtaken_iff (listedBy_dbEntries hp hdb)
    (fun m hm => hms m (hsuffix.subset hm)) key]
  refine and_congr_right fun ⟨c, hc, hfind⟩ => ?_
  have hheld : ¬∀ m ∈ (s.map fun c => c.mapData.find?), m key = none := fun h => by
    rw [h _ (List.mem_map.mpr ⟨c, hc, rfl⟩)] at hfind
    exact Bool.false_ne_true hfind
  rw [or_iff_right hheld]
  exact and_iff_right_of_imp fun ⟨_, _, hw⟩ => hw.2.1

/-- **The entries of a walk from the first key**, each with whether it is a record: the live entries of the caches,
and the records that are given. -/
theorem exists_stream (hp : p.InUse) (hdb : StoredLive K V acc p) (s : CacheStack K V) :
    ∃ T : List (K × V × Bool), T.map (fun e => (e.1, e.2.1)) = stackStream acc p s .all ∧ T.Nodup ∧
      (∀ key value, (key, value, false) ∈ T ↔ Held s key ∧ CacheStack.view acc p s key = some value) ∧
      ∀ key value, (key, value, true) ∈ T ↔ acc.getData p key = some value ∧ RecordGiven acc p s key := by
  have hlisted := listedBy_dbEntries (K := K) (V := V) hp hdb.wellStored
  have hlive : ∀ e ∈ dbEntries (K := K) (V := V) p ((Bound.all : Bound K).records p acc.db), isEmpty e.2 = false :=
    fun e he => hdb.isEmpty_eq_false ((mem_dbEntries_all hp hdb.wellStored).mp (show (e.1, e.2) ∈ _ from he))
  have hms : ∀ m ∈ (s.map fun c => c.mapData.entries), Ascending m := by
    intro m hm
    obtain ⟨c, -, rfl⟩ := List.mem_map.mp hm
    exact c.mapData.ascending
  obtain ⟨T, hT, hmap⟩ := exists_laid hlisted hlive hms
  rw [List.map_map] at hT
  refine ⟨T, hmap.trans (stackStream_all_eq s).symm, hT.nodup hlisted, fun key value => ?_, fun key value => ?_⟩
  · have hview : CacheStack.view acc p s key =
        live ((pile (s.map fun c => c.mapData.find?) (fun _ => none) key).or (acc.getData p key)) := by
      rw [CacheStack.view, CacheStack.find, pile_eq_or]
    rw [hT.upper, hview]
    change pile (s.map fun c => c.mapData.find?) (fun _ => none) key = some value ∧ _ ↔ _
    cases hpile : pile (s.map fun c => c.mapData.find?) (fun _ => none) key with
    | none =>
      have hheld := pile_eq_none_iff.mp hpile
      exact iff_of_false (fun h => Option.some_ne_none value h.1.symm) fun h => hheld h.1
    | some v =>
      have hheld : Held s key := not_not.mp fun h => by
        rw [pile_eq_none_iff.mpr h] at hpile
        exact absurd hpile.symm (Option.some_ne_none v)
      rw [Option.some_or, live_eq_some_iff, and_iff_right hheld]
  · rw [hT.lowest, mem_dbEntries_all hp hdb.wellStored]
    rfl

/-- **The entries of a walk** are those of the view, and the leftover ones. -/
theorem mem_stackStream_all (hp : p.InUse) (hdb : StoredLive K V acc p) (s : CacheStack K V) {key : K} {value : V} :
    (key, value) ∈ stackStream acc p s .all ↔
      CacheStack.view acc p s key = some value ∨ acc.getData p key = some value ∧ Leftover acc p s key := by
  obtain ⟨T, hmap, -, hupper, hlowest⟩ := exists_stream hp hdb s
  have hmem : (key, value) ∈ stackStream acc p s .all ↔ ∃ low, (key, value, low) ∈ T := by
    rw [← hmap, List.mem_map]
    constructor
    · rintro ⟨⟨k, v, low⟩, he, heq⟩
      obtain ⟨rfl, rfl⟩ := Prod.mk.inj heq
      exact ⟨low, he⟩
    · rintro ⟨low, he⟩
      exact ⟨_, he, rfl⟩
  rw [hmem]
  constructor
  · rintro ⟨low, he⟩
    cases low with
    | false => exact .inl ((hupper key value).mp he).2
    | true =>
      obtain ⟨hget, hgiven⟩ := (hlowest key value).mp he
      by_cases hheld : Held s key
      · exact .inr ⟨hget, hheld, by rw [hget]; rfl, hgiven⟩
      · rw [view_of_not_held hheld, hget, live_of_not_isEmpty (hdb.isEmpty_eq_false hget)]
        exact .inl rfl
  · rintro (hview | ⟨hget, -, -, hgiven⟩)
    · by_cases hheld : Held s key
      · exact ⟨false, (hupper key value).mpr ⟨hheld, hview⟩⟩
      · rw [view_of_not_held hheld, live_eq_some_iff] at hview
        exact ⟨true, (hlowest key value).mpr ⟨hview.1, recordGiven_of_not_held hheld⟩⟩
    · exact ⟨true, (hlowest key value).mpr ⟨hget, hgiven⟩⟩

end Records

end Inery
