import IneryPersistence.Iterator.Block
import IneryPersistence.Lib.Disorder

/-!
# Elements in the order of the caches

When the first elements of the keys are in one order in the caches and in the database, a prefix iterator gives
what a walk from the first key gives of its element, in whatever order the rest of the keys is.

* `pairwise_get0_dbEntries`, `pairwise_get0_stackStream`: a walk goes through the elements in their order;
* `filter_fromLowest`: where a walk starts makes no difference to the entries of the element;
* **`block_eq_filter`**, `prefixIterator_yields`: the entries of the element are neighbours.
-/

namespace Inery

open KV

section Element

variable {A B V : Type} [LinearOrder A] [Serial A] [StreamSerial A] [LinearOrder B] [Serial B] [StreamSerial B]
  [Serial V] [LawfulSerial V] [DbUtil V] {acc : CDBAccess} {p : PrefixType} (hA : SameOrder A) (hp : p.InUse)
  (hdb : WellStored (A ×ₗ B) V acc p)

include hA in
omit [LinearOrder B] [StreamSerial B] in
theorem get0_le_of_genDbKey_lt {key key' : A ×ₗ B} (h : genDbKey p key < genDbKey p key') :
    get0 key ≤ get0 key' := by
  rw [genDbKey, genDbKey, append_lt_append_iff] at h
  exact not_lt.mp fun hlt => (ser_append_lt hA hlt _ _).asymm h

include hA hp hdb

omit [LinearOrder B] [DbUtil V] in
theorem pairwise_get0_dbEntries (bound : Bound (A ×ₗ B)) :
    (dbEntries (K := A ×ₗ B) (V := V) p (bound.records p acc.db)).Pairwise fun e e' => get0 e.1 ≤ get0 e'.1 :=
  (pairwise_dbEntries hp hdb bound).imp fun {_ _} h => get0_le_of_genDbKey_lt hA h

/-- **A walk goes through the elements in their order.** -/
theorem pairwise_get0_stackStream (bound : Bound (A ×ₗ B)) (s : CacheStack (A ×ₗ B) V) :
    (stackStream acc p s bound).Pairwise fun e e' => get0 e.1 ≤ get0 e'.1 := by
  induction s with
  | nil => exact pairwise_get0_dbEntries hA hp hdb bound
  | cons c s ih =>
    refine List.Pairwise.filter _ (pairwise_overlay (bound.ascending_from c.mapData) ih
      (fun e e' _ hlt => get0_le hlt.le) fun e _ e' _ e'' _ hle hle' => (get0_le hle).trans hle')

variable [DbUtil B] (hser : ∀ b : B, ser (makeEmptyValue B) ≤ ser b)

include hser

omit [LinearOrder B] [DbUtil V] hA in
theorem filter_dbEntries (a : A) :
    (dbEntries (K := A ×ₗ B) (V := V) p ((Bound.ge (lowest B a)).records p acc.db)).filter
        (fun e => get0 e.1 = a) =
      (dbEntries p ((Bound.all : Bound (A ×ₗ B)).records p acc.db)).filter fun e => get0 e.1 = a := by
  have hsorted : ∀ bound : Bound (A ×ₗ B), ((dbEntries (K := A ×ₗ B) (V := V) p
      (bound.records p acc.db)).filter fun e => get0 e.1 = a).Pairwise fun e e' =>
        genDbKey p e.1 < genDbKey p e'.1 := fun bound => (pairwise_dbEntries hp hdb bound).filter _
  refine List.Perm.eq_of_pairwise (fun e e' _ _ h h' => absurd h h'.asymm) (hsorted _) (hsorted _)
    ((List.perm_ext_iff_of_nodup ((hsorted _).imp fun {e e'} h => ?_) ((hsorted _).imp fun {e e'} h => ?_)).mpr
      fun e => ?_)
  · rintro rfl
    exact lt_irrefl _ h
  · rintro rfl
    exact lt_irrefl _ h
  · obtain ⟨key, value⟩ := e
    rw [List.mem_filter, List.mem_filter, mem_dbEntries_iff hp hdb, mem_dbEntries_iff hp hdb, Bound.records,
      Bound.records, SortedMap.mem_lowerBound, SortedMap.mem_lowerBound]
    refine and_congr_left fun h₀ => and_congr_right fun _ => iff_of_true ?_ (le_append _ _)
    obtain rfl : get0 key = a := of_decide_eq_true h₀
    exact (append_le_append_iff _).mpr (ser_toLex_le le_rfl (hser _))

variable [LeastEmpty B]

theorem filter_fromLowest (a : A) (s : CacheStack (A ×ₗ B) V) :
    (fromLowest acc p a s).filter (fun e => get0 e.1 = a) =
      (stackStream acc p s .all).filter fun e => get0 e.1 = a := by
  have hget0 : Monotone (get0 : A ×ₗ B → A) := fun _ _ h => get0_le h
  induction s with
  | nil => exact filter_dbEntries hp hdb hser a
  | cons c s ih =>
    have hentries : (c.mapData.lowerBound (lowest B a)).filter (fun e => get0 e.1 = a) =
        c.mapData.entries.filter fun e => get0 e.1 = a := by
      refine ((c.mapData.ascending_lowerBound _).filter _).ext (c.mapData.ascending.filter _) fun e => ?_
      rw [List.mem_filter, List.mem_filter, SortedMap.mem_lowerBound]
      refine and_congr_left fun h₀ => and_iff_left (lowest_le LeastEmpty.makeEmptyValue_le (of_decide_eq_true h₀))
    have hover : ∀ bound : Bound (A ×ₗ B), (stackStream acc p (c :: s) bound).filter (fun e => get0 e.1 = a) =
        liveEntries (overlay ((bound.from c.mapData).filter fun e => get0 e.1 = a)
          ((stackStream acc p s bound).filter fun e => get0 e.1 = a)) := fun bound => by
      rw [stackStream, liveEntries, List.filter_comm, filter_overlay hget0 (bound.ascending_from c.mapData)
        (pairwise_get0_stackStream hA hp hdb bound s), liveEntries]
    rw [fromLowest, hover, hover, Bound.from, Bound.from, hentries, ← ih, fromLowest]

omit [LeastEmpty B] hser in
theorem le_get0_of_mem_fromLowest {a : A} {s : CacheStack (A ×ₗ B) V} {e : (A ×ₗ B) × V}
    (h : e ∈ fromLowest acc p a s) : a ≤ get0 e.1 := by
  induction s with
  | nil =>
    have hle := ((mem_fromLowest_nil hp hdb).mp h).2
    rw [genDbKey, genDbKey, append_le_append_iff] at hle
    exact not_lt.mp fun hlt => hle.not_gt (ser_append_lt hA hlt _ _)
  | cons c s ih =>
    rcases mem_overlay (List.mem_filter.mp h).1 with h | h
    · exact le_get0 (SortedMap.mem_lowerBound.mp h).2
    · exact ih h

/-- **The entries of an element are neighbours.** -/
theorem block_eq_filter (a : A) (s : CacheStack (A ×ₗ B) V) :
    block acc p a s = (stackStream acc p s .all).filter fun e => get0 e.1 = a := by
  rw [← filter_fromLowest hA hp hdb hser, block]
  refine (takeWhile_eq_filter ((pairwise_get0_stackStream hA hp hdb _ s).imp_of_mem
    fun {e e'} he _ hle h => ?_)).1
  have hge := le_get0_of_mem_fromLowest hA hp hdb he
  exact decide_eq_true (le_antisymm (hle.trans_eq (of_decide_eq_true h)) hge)

/-- **A prefix iterator** gives the entries of its element, from whatever state it is in. -/
theorem prefixIterator_yields [DbUtil A] [LeastEmpty A] (a : A) (s : CacheStack (A ×ₗ B) V)
    (st : (CacheStack.create acc p s).State) :
    ∃ st', (prefixIterator (commonPrefixMatcher A B) a (CacheStack.create acc p s)).first st = some st' ∧
      (prefixIterator (commonPrefixMatcher A B) a (CacheStack.create acc p s)).Enumerates st'
        ((stackStream acc p s .all).filter fun e => get0 e.1 = a) := by
  rw [← block_eq_filter hA hp hdb hser]
  refine prefixIterator_block hp hdb a (fun he key => ser_toLex_le ?_ (hser _)) s st
  have hleast := LeastEmpty.le_of_isEmpty a he (ofLex key).1
  exact not_lt.mp fun hlt => hleast.not_gt ((hA _ _).mpr hlt)

end Element

end Inery
