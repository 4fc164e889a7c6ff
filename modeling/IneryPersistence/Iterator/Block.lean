import IneryPersistence.Iterator.Enumerate
import IneryPersistence.Iterator.Prefixed
import Mathlib.Data.List.TakeWhile

/-!
# What a prefix iterator reaches

The entries of one prefix element are neighbours in a cache and in the database alike, but the
elements themselves may be ordered one way in a cache and another way in the database. A walk that
starts at an element then gives an initial part of the element's live entries.

* `lowest`, `block`: where the walk starts, and what it gives before it leaves the element;
* `Blocked`, `Reached`: the walk of a base meets a lesser element next; the entries that are given;
* `block_nil`, `overlay_block`: the records, and one cache over its base;
* **`walks`**: the block of a stack holds the live entries of the element that are reached.
-/

namespace Inery

open KV

section Element

variable {A B : Type} [LinearOrder A] [LinearOrder B] [DbUtil B]

/-- The key that a prefix iterator seeks. -/
def lowest (B : Type) [DbUtil B] (a : A) : A ×ₗ B := toLex (a, makeEmptyValue B)

theorem le_get0 {a : A} {key : A ×ₗ B} (h : lowest B a ≤ key) : a ≤ get0 key := by
  obtain ⟨a', b⟩ := key
  rcases Prod.Lex.toLex_le_toLex.mp h with h | h
  · exact h.le
  · exact h.1.le

theorem lowest_le (hleast : ∀ b : B, makeEmptyValue B ≤ b) {a : A} {key : A ×ₗ B} (h : get0 key = a) :
    lowest B a ≤ key := by
  obtain ⟨a', b⟩ := key
  exact Prod.Lex.toLex_le_toLex.mpr (.inr ⟨h.symm, hleast b⟩)

omit [DbUtil B] in
theorem lt_of_get0_lt {key key' : A ×ₗ B} (h : get0 key < get0 key') : key < key' := by
  obtain ⟨a, b⟩ := key
  obtain ⟨a', b'⟩ := key'
  exact Prod.Lex.toLex_lt_toLex.mpr (.inl h)

end Element

section Block

variable {A B V : Type} [LinearOrder A] [Serial A] [LinearOrder B] [Serial B] [DbUtil B] [Serial V]
  [DbUtil V] (acc : CDBAccess) (p : PrefixType) (a : A)

/-- The list of a walk from an element on. -/
def fromLowest (s : CacheStack (A ×ₗ B) V) : List ((A ×ₗ B) × V) :=
  stackStream acc p s (.ge (lowest B a))

/-- The entries of the element, up to the first entry of another one. -/
def block (s : CacheStack (A ×ₗ B) V) : List ((A ×ₗ B) × V) :=
  (fromLowest acc p a s).takeWhile fun e => get0 e.1 = a

/-- What the walk gives after the block. -/
def afterBlock (s : CacheStack (A ×ₗ B) V) : List ((A ×ₗ B) × V) :=
  (fromLowest acc p a s).dropWhile fun e => get0 e.1 = a

/-- The walk comes from the element to a lesser one. -/
def Blocked (s : CacheStack (A ×ₗ B) V) : Prop := ∃ e ∈ (afterBlock acc p a s).head?, get0 e.1 < a

/-- An entry of the element is given: no base on its way is blocked, or the base has an entry of the
element, not below it, that is given. -/
def Reached : CacheStack (A ×ₗ B) V → (A ×ₗ B) → Prop
  | [], _ => True
  | _ :: s, key => ¬Blocked acc p a s ∨ ∃ key', key ≤ key' ∧ get0 key' = a ∧
      (CacheStack.view acc p s key').isSome = true ∧ Reached s key'

theorem reached_mono {s : CacheStack (A ×ₗ B) V} {key key' : A ×ₗ B} (h : Reached acc p a s key')
    (hle : key ≤ key') : Reached acc p a s key := by
  cases s with
  | nil => trivial
  | cons c s => exact h.imp_right fun ⟨key'', hle', h'⟩ => ⟨key'', hle.trans hle', h'⟩

theorem fromLowest_eq (s : CacheStack (A ×ₗ B) V) :
    fromLowest acc p a s = block acc p a s ++ afterBlock acc p a s :=
  List.takeWhile_append_dropWhile.symm

theorem get0_of_mem_block {s : CacheStack (A ×ₗ B) V} {e : (A ×ₗ B) × V} (h : e ∈ block acc p a s) :
    get0 e.1 = a := by simpa using List.mem_takeWhile_imp h

/-- A walk that begins with entries of the element and goes on with another one. -/
theorem block_of_append {s : CacheStack (A ×ₗ B) V} {x y : List ((A ×ₗ B) × V)}
    (h : fromLowest acc p a s = x ++ y) (hx : ∀ e ∈ x, get0 e.1 = a)
    (hy : ∀ e ∈ y.head?, get0 e.1 ≠ a) : block acc p a s = x ∧ afterBlock acc p a s = y := by
  have hx' : ∀ e ∈ x, decide (get0 e.1 = a) = true := fun e he => decide_eq_true (hx e he)
  have hy' : y.takeWhile (fun e => get0 e.1 = a) = [] ∧ y.dropWhile (fun e => get0 e.1 = a) = y := by
    cases y with
    | nil => exact ⟨rfl, rfl⟩
    | cons e y => simp [hy e rfl]
  rw [block, afterBlock, h, List.takeWhile_append_of_pos hx', List.dropWhile_append_of_pos hx', hy'.1,
    hy'.2, List.append_nil]
  exact ⟨rfl, rfl⟩

/-- What holds of the walk of a stack from an element on. -/
structure Walks (s : CacheStack (A ×ₗ B) V) : Prop where
  ascending : Ascending (block acc p a s)
  mem : ∀ key value, (key, value) ∈ block acc p a s ↔
    get0 key = a ∧ CacheStack.view acc p s key = some value ∧ Reached acc p a s key
  reached : ¬Blocked acc p a s → ∀ key, Reached acc p a s key
  after : ¬Blocked acc p a s → ∀ e ∈ afterBlock acc p a s, get0 e.1 ≠ a
  live : ∀ e ∈ fromLowest acc p a s, isEmpty e.2 = false

variable {acc p a}

/-! ## The records -/

section Records

variable [StreamSerial A] [StreamSerial B] [LawfulSerial V]

omit [DbUtil B] [StreamSerial A] [StreamSerial B] in
theorem genDbKey_lt_of_get0 (hB : SameOrder B) {key key' : A ×ₗ B} (h : get0 key = get0 key') :
    genDbKey p key < genDbKey p key' ↔ key < key' := by
  obtain ⟨a, b⟩ := key
  obtain ⟨a', b'⟩ := key'
  obtain rfl : a = a' := h
  change genDbKey p (toLex (a, b)) < genDbKey p (toLex (a, b')) ↔ toLex (a, b) < toLex (a, b')
  rw [Prod.Lex.toLex_lt_toLex, genDbKey, genDbKey, append_lt_append_iff, ser_toLex, ser_toLex,
    append_lt_append_iff, ← hB]
  simp

theorem mem_fromLowest_nil (hp : p.InUse) (hdb : WellStored (A ×ₗ B) V acc p) {key : A ×ₗ B} {value : V} :
    (key, value) ∈ fromLowest acc p a ([] : CacheStack (A ×ₗ B) V) ↔
      acc.getData p key = some value ∧ genDbKey p (lowest B a) ≤ genDbKey p key := by
  rw [fromLowest, stackStream, mem_dbEntries_iff hp hdb, Bound.records, SortedMap.mem_lowerBound,
    getData_eq_some_iff hdb, SortedMap.find?_eq_some_iff]

/-- **The records of the element come first.** -/
theorem block_nil (hp : p.InUse) (hdb : WellStored (A ×ₗ B) V acc p) :
    block acc p a ([] : CacheStack (A ×ₗ B) V) =
        (fromLowest acc p a ([] : CacheStack (A ×ₗ B) V)).filter (fun e => get0 e.1 = a) ∧
      afterBlock acc p a ([] : CacheStack (A ×ₗ B) V) =
        (fromLowest acc p a ([] : CacheStack (A ×ₗ B) V)).filter fun e => !decide (get0 e.1 = a) := by
  refine takeWhile_eq_filter ((pairwise_dbEntries hp hdb _).imp_of_mem fun {e e'} he _ hlt h => ?_)
  -- what lies between the lowest key of the element and a key of the element begins with it too
  have hge := (mem_fromLowest_nil hp hdb).mp he |>.2
  rw [genDbKey, genDbKey, append_le_append_iff] at hge
  rw [genDbKey, genDbKey, append_lt_append_iff] at hlt
  have h₁ : ser a ≤ ser e.1 := (le_append _ _).trans hge
  have h₂ : ser e.1 ≤ ser a ++ ser (ofLex e'.1).2 := by
    have heq : ser e'.1 = ser (get0 e'.1) ++ ser (ofLex e'.1).2 := rfl
    rw [heq, of_decide_eq_true h] at hlt
    exact hlt.le
  exact decide_eq_true (eq_of_ser_isPrefix (prefix_of_between h₁ h₂)).symm

theorem walks_nil (hp : p.InUse) (hB : SameOrder B) (hlive : StoredLive (A ×ₗ B) V acc p)
    (hleast : ∀ b : B, makeEmptyValue B ≤ b) :
    Walks acc p a ([] : CacheStack (A ×ₗ B) V) := by
  have hdb := hlive.wellStored
  obtain ⟨hblock, hafter⟩ := block_nil (a := a) hp hdb
  refine ⟨?_, fun key value => ?_, fun _ _ => trivial, fun _ e he => ?_, fun e he => ?_⟩
  · have hpair := (pairwise_dbEntries hp hdb (.ge (lowest B a))).filter fun e => get0 e.1 = a
    rw [hblock]
    refine hpair.imp_of_mem fun {e e'} he he' hlt => ?_
    have h₁ := of_decide_eq_true (List.mem_filter.mp he).2
    have h₂ := of_decide_eq_true (List.mem_filter.mp he').2
    exact (genDbKey_lt_of_get0 hB (h₁.trans h₂.symm)).mp hlt
  · rw [hblock, List.mem_filter, mem_fromLowest_nil hp hdb, decide_eq_true_iff, CacheStack.view,
      CacheStack.find_nil, live_eq_some_iff]
    constructor
    · rintro ⟨⟨hget, -⟩, h₀⟩
      exact ⟨h₀, ⟨hget, hlive.isEmpty_eq_false hget⟩, trivial⟩
    · rintro ⟨h₀, ⟨hget, -⟩, -⟩
      refine ⟨⟨hget, ?_⟩, h₀⟩
      rw [← not_lt, genDbKey_lt_of_get0 hB (h₀.trans rfl), not_lt]
      exact lowest_le hleast h₀
  · rw [hafter, List.mem_filter] at he
    simpa using he.2
  · exact hlive.isEmpty_eq_false ((mem_fromLowest_nil hp hdb).mp he).1

end Records

/-! ## A cache over its base -/

section Over

variable {s : CacheStack (A ×ₗ B) V} (h : Walks acc p a s) (c : IneryCompositeKVCache (A ×ₗ B) V)
include h

theorem Walks.reached_cons_iff (key : A ×ₗ B) : Reached acc p a (c :: s) key ↔
    ¬Blocked acc p a s ∨ ∃ e ∈ block acc p a s, key ≤ e.1 := by
  refine or_congr_right ⟨?_, ?_⟩
  · rintro ⟨key', hle, h₀, hview, hreached⟩
    obtain ⟨value, hvalue⟩ := Option.isSome_iff_exists.mp hview
    exact ⟨(key', value), (h.mem key' value).mpr ⟨h₀, hvalue, hreached⟩, hle⟩
  · rintro ⟨e, he, hle⟩
    obtain ⟨h₀, hview, hreached⟩ := (h.mem e.1 e.2).mp he
    exact ⟨e.1, hle, h₀, Option.isSome_iff_exists.mpr ⟨e.2, hview⟩, hreached⟩

theorem Walks.head?_of_blocked {m : List ((A ×ₗ B) × V)} (hm : ∀ e ∈ m, a ≤ get0 e.1)
    {e : (A ×ₗ B) × V} (he : e ∈ (afterBlock acc p a s).head?) (hlt : get0 e.1 < a) :
    (liveEntries (overlay m (afterBlock acc p a s))).head? = some e := by
  obtain ⟨rest, hrest⟩ := List.head?_eq_some_iff.mp he
  have hlive : isEmpty e.2 = false := by
    refine h.live e ?_
    rw [fromLowest_eq, hrest]
    exact List.mem_append_right _ List.mem_cons_self
  rw [hrest, overlay_cons_of_lt fun e' he' => lt_of_get0_lt (hlt.trans_le (hm e' he')), liveEntries,
    List.filter_cons_of_pos (by simp [hlive])]
  rfl

/-- **One cache over its base**: of its entries of the element, those that the walk reaches before it
leaves the element at the base are merged into the block, and the others into what follows. -/
theorem Walks.overlay_block : ∃ m m' : List ((A ×ₗ B) × V), Ascending m ∧
    (∀ e, e ∈ m ↔ e ∈ c.mapData.lowerBound (lowest B a) ∧ get0 e.1 = a ∧
      Reached acc p a (c :: s) e.1) ∧
    (∀ e ∈ m', a ≤ get0 e.1 ∧ (¬Blocked acc p a s → get0 e.1 ≠ a)) ∧
    block acc p a (c :: s) = liveEntries (overlay m (block acc p a s)) ∧
    afterBlock acc p a (c :: s) = liveEntries (overlay m' (afterBlock acc p a s)) := by
  have hasc := c.mapData.ascending_lowerBound (lowest B a)
  have hle : ∀ e ∈ c.mapData.lowerBound (lowest B a), a ≤ get0 e.1 := fun e he =>
    le_get0 (SortedMap.mem_lowerBound.mp he).2
  obtain ⟨m, m', hm, hmem, hmem'⟩ := exists_append_of_pairwise
    (q := fun e : (A ×ₗ B) × V => get0 e.1 = a ∧ Reached acc p a (c :: s) e.1)
    (hasc.imp_of_mem fun {e e'} he _ hlt hq =>
      ⟨le_antisymm (hq.1 ▸ get0_le hlt.le) (hle e he), reached_mono acc p a hq.2 hlt.le⟩)
  rw [hm] at hasc
  have hascm : Ascending m := hasc.sublist (List.sublist_append_left m m')
  refine ⟨m, m', hascm, hmem, fun e he => ⟨hle e (hmem' e he).1, fun hb h₀ =>
    (hmem' e he).2 ⟨h₀, .inl hb⟩⟩, ?_⟩
  have happend : overlay (m ++ m') (block acc p a s ++ afterBlock acc p a s) =
      overlay m (block acc p a s) ++ overlay m' (afterBlock acc p a s) := by
    refine overlay_append_append hascm (fun e he => ?_) fun e he e' he' => ?_
    · obtain ⟨-, h₀, hreached⟩ := (hmem e).mp he
      refine ((h.reached_cons_iff c e.1).mp hreached).symm.imp_right fun hb e' he' => ?_
      have hne := h.after hb e' (List.mem_of_mem_head? he')
      have hnlt : ¬get0 e'.1 < a := fun hlt => hb ⟨e', he', hlt⟩
      exact lt_of_get0_lt (h₀ ▸ lt_of_le_of_ne (not_lt.mp hnlt) hne.symm)
    · obtain ⟨hmem₀, hnot⟩ := hmem' e (List.mem_of_mem_head? he)
      have h₀' := get0_of_mem_block acc p a he'
      by_cases h₀ : get0 e.1 = a
      · refine not_le.mp fun hle' => hnot ⟨h₀, (h.reached_cons_iff c e.1).mpr (.inr ⟨e', he', hle'⟩)⟩
      · exact lt_of_get0_lt (h₀' ▸ lt_of_le_of_ne (hle e hmem₀) (Ne.symm h₀))
  have hfrom : fromLowest acc p a (c :: s) = liveEntries (overlay m (block acc p a s)) ++
      liveEntries (overlay m' (afterBlock acc p a s)) := by
    rw [fromLowest, stackStream, ← fromLowest, fromLowest_eq, Bound.from, hm, happend, liveEntries,
      List.filter_append]
    rfl
  refine block_of_append acc p a hfrom (fun e he => ?_) fun e he => ?_
  · rcases mem_overlay (List.mem_filter.mp he).1 with he | he
    · exact ((hmem e).mp he).2.1
    · exact get0_of_mem_block acc p a he
  · by_cases hb : Blocked acc p a s
    · obtain ⟨e₀, he₀, hlt⟩ := hb
      rw [h.head?_of_blocked (fun e he => hle e (hmem' e he).1) he₀ hlt] at he
      obtain rfl : e₀ = e := Option.some.inj he
      exact hlt.ne
    · rcases mem_overlay (List.mem_filter.mp (List.mem_of_mem_head? he)).1 with he | he
      · exact fun h₀ => (hmem' e he).2 ⟨h₀, .inl hb⟩
      · exact h.after hb e he

theorem Walks.blocked_cons (hb : Blocked acc p a s) : Blocked acc p a (c :: s) := by
  obtain ⟨m, m', -, -, hm', -, hafter⟩ := h.overlay_block c
  obtain ⟨e, he, hlt⟩ := hb
  refine ⟨e, ?_, hlt⟩
  rw [hafter, h.head?_of_blocked (fun e he => (hm' e he).1) he hlt]
  rfl

theorem Walks.cons (hleast : ∀ b : B, makeEmptyValue B ≤ b) : Walks acc p a (c :: s) := by
  obtain ⟨m, m', hasc, hmem, hm', hblock, hafter⟩ := h.overlay_block c
  have hbase : ¬Blocked acc p a (c :: s) → ¬Blocked acc p a s := mt (h.blocked_cons c)
  refine ⟨?_, fun key value => ?_, fun hb _ => .inl (hbase hb), fun hb e he => ?_, fun e he => ?_⟩
  · rw [hblock]
    exact (ascending_overlay hasc h.ascending).filter _
  · have hm : ∀ value, (key, value) ∈ m ↔ c.mapData.find? key = some value ∧ get0 key = a ∧
        Reached acc p a (c :: s) key := by
      intro value
      rw [hmem, SortedMap.mem_lowerBound, SortedMap.find?_eq_some_iff, and_assoc]
      refine and_congr_right fun _ => and_iff_right_of_imp fun hq => lowest_le hleast hq.1
    have hlookup : (key, value) ∈ block acc p a (c :: s) ↔
        ((lookup key m).or (lookup key (block acc p a s))) = some value ∧ isEmpty value = false := by
      rw [hblock, liveEntries, List.mem_filter, ← lookup_overlay hasc h.ascending,
        (ascending_overlay hasc h.ascending).lookup_eq_some_iff]
      simp
    rw [hlookup]
    by_cases hq : get0 key = a ∧ Reached acc p a (c :: s) key
    · have hfind : lookup key m = c.mapData.find? key := by
        refine Option.ext fun value => ?_
        rw [hasc.lookup_eq_some_iff, hm, and_iff_left hq]
      rw [hfind]
      cases hc : c.mapData.find? key with
      | some value' =>
        rw [Option.some_or, CacheStack.view_cons_of_some acc p hc, live_eq_some_iff]
        exact ⟨fun hv => ⟨hq.1, hv, hq.2⟩, fun hv => hv.2.1⟩
      | none =>
        rw [Option.none_or, CacheStack.view_cons_of_none acc p hc, h.ascending.lookup_eq_some_iff, h.mem]
        constructor
        · rintro ⟨⟨h₀, hview, -⟩, -⟩
          exact ⟨h₀, hview, hq.2⟩
        · rintro ⟨h₀, hview, hreached⟩
          have hreached' : Reached acc p a s key := by
            rcases (h.reached_cons_iff c key).mp hreached with hb | ⟨e, he, hle⟩
            · exact h.reached hb key
            · exact reached_mono acc p a ((h.mem e.1 e.2).mp he).2.2 hle
          exact ⟨⟨h₀, hview, hreached'⟩, (live_eq_some_iff.mp hview).2⟩
    · -- an entry that is not reached is neither taken from the cache nor found in the base
      have hnone : lookup key m = none := by
        refine Option.eq_none_iff_forall_ne_some.mpr fun value' hv => ?_
        exact hq ((hm value').mp (hasc.lookup_eq_some_iff.mp hv)).2
      refine iff_of_false ?_ fun hv => hq ⟨hv.1, hv.2.2⟩
      rintro ⟨hv, -⟩
      rw [hnone, Option.none_or, h.ascending.lookup_eq_some_iff] at hv
      exact hq ⟨((h.mem key value).mp hv).1, (h.reached_cons_iff c key).mpr (.inr ⟨_, hv, le_rfl⟩)⟩
  · rw [hafter] at he
    rcases mem_overlay (List.mem_filter.mp he).1 with he | he
    · exact (hm' e he).2 (hbase hb)
    · exact h.after (hbase hb) e he
  · simpa using (List.mem_filter.mp he).2

end Over

section Stack

variable [StreamSerial A] [StreamSerial B] [LawfulSerial V]

omit [LinearOrder A] [LinearOrder B] [StreamSerial A] [StreamSerial B] [LawfulSerial V] in
/-- From a key that is the least in both orders, a walk gives what it gives from the start. -/
theorem stackStream_all {K : Type} [LinearOrder K] [Serial K] (hdb : WellStored K V acc p) {k : K}
    (hk : ∀ key, k ≤ key) (hser : ∀ key : K, ser k ≤ ser key) (s : CacheStack K V) :
    stackStream acc p s .all = stackStream acc p s (.ge k) := by
  induction s with
  | nil =>
    have hrecords : acc.db.lowerBound (getKeyPrefix p) = acc.db.lowerBound (genDbKey p k) := by
      refine (SortedMap.ascending_lowerBound _ _).ext (SortedMap.ascending_lowerBound _ _) fun r => ?_
      rw [SortedMap.mem_lowerBound, SortedMap.mem_lowerBound]
      refine and_congr_right fun hr => ⟨fun hle => ?_, fun hle => (le_append _ _).trans hle⟩
      by_contra hlt
      obtain ⟨key, value, rfl⟩ := hdb r hr (prefix_of_between hle (not_le.mp hlt).le)
      exact hlt ((append_le_append_iff _).mpr (hser key))
    rw [stackStream, stackStream, Bound.records, hrecords]
    rfl
  | cons c s ih =>
    have hentries : c.mapData.entries = c.mapData.lowerBound k := by
      refine c.mapData.ascending.ext (SortedMap.ascending_lowerBound _ _) fun e => ?_
      rw [SortedMap.mem_lowerBound, and_iff_left (hk e.1)]
    rw [stackStream, stackStream, ih, Bound.from, hentries]
    rfl

/-- **A prefix iterator** gives the block of its element, from whatever state it is in. -/
theorem prefixIterator_block [DbUtil A] [LeastEmpty A] [LeastEmpty B] (hp : p.InUse)
    (hdb : WellStored (A ×ₗ B) V acc p) (a : A)
    (hser : isEmpty a = true → ∀ key : A ×ₗ B, ser (lowest B a) ≤ ser key)
    (s : CacheStack (A ×ₗ B) V) (st : (CacheStack.create acc p s).State) :
    ∃ st', (prefixIterator (commonPrefixMatcher A B) a (CacheStack.create acc p s)).first st = some st' ∧
      (prefixIterator (commonPrefixMatcher A B) a (CacheStack.create acc p s)).Enumerates st' (block acc p a s) := by
  obtain ⟨st', hst', henum⟩ := CacheStack.create_yields hp hdb s (.seek (some (lowest B a))) st
  have hstream : stackStream acc p s (Start.seek (some (lowest B a))).bound = fromLowest acc p a s := by
    rw [Start.bound]
    split_ifs with he
    · -- the empty key is the least one, in a cache and in the database
      exact stackStream_all hdb (LeastEmpty.le_of_isEmpty _ he) (hser (Bool.and_eq_true_iff.mp he).1) s
    · rfl
  refine ⟨st', hst', ?_⟩
  rw [block, ← hstream]
  exact enumerates_prefixIterator (commonPrefixMatcher A B) a henum

/-- **Every stack.** -/
theorem walks (hp : p.InUse) (hB : SameOrder B) (hlive : StoredLive (A ×ₗ B) V acc p)
    (hleast : ∀ b : B, makeEmptyValue B ≤ b) (a : A) (s : CacheStack (A ×ₗ B) V) : Walks acc p a s := by
  induction s with
  | nil => exact walks_nil hp hB hlive hleast
  | cons c s ih => exact ih.cons c hleast

end Stack

end Block

end Inery
