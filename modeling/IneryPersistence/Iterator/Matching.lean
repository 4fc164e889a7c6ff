import IneryPersistence.Db.TailKey
import IneryPersistence.Iterator.Enumerate
import IneryPersistence.Iterator.Prefixed

/-!
# The keys of a prefix

The keys with a prefix lie side by side, and none of them is below the key that is made of the prefix alone.

* `nullMatcher`, `firstTwoMatcher`, `tailKeyMatcher`: the other forms of the `CommonPrefixMatcher`;
* `PrefixMatcher.Convex`: what the iterator relies on; `CommonPrefix`, `CommonPrefix.convex`: every form has it;
* `mem_takeWhile_matchPrefix`: from the made key on, the live keys with the prefix come first;
* **`prefix_iteration_exact`**: a walk from `First` gives the live keys with the prefix.
-/

namespace Inery

open KV

/-! ## The forms of a prefix -/

/-- The `CommonPrefixMatcher` of a `CNullObject`, which every key matches. -/
def nullMatcher (K : Type) [DbUtil K] : PrefixMatcher K Unit where
  makeKeyByPrefix _ := makeEmptyValue K
  matchPrefix _ _ := true

/-- The `CommonPrefixMatcher` of a tuple and the pair of its first two elements. -/
def firstTwoMatcher (A B C : Type) [DecidableEq A] [DecidableEq B] [DbUtil C] :
    PrefixMatcher (A ×ₗ B ×ₗ C) (A × B) where
  makeKeyByPrefix pre := toLex (pre.1, toLex (pre.2, makeEmptyValue C))
  matchPrefix key pre := get0 key = pre.1 ∧ get1 key = pre.2

/-- The `CommonPrefixMatcher` of a pair and a pair whose second element may match in part. -/
def tailKeyMatcher (A : Type) [DecidableEq A] (n : ℕ) : PrefixMatcher (A ×ₗ CDBTailKey n) (A ×ₗ CDBTailKey n) where
  makeKeyByPrefix pre := pre
  matchPrefix key pre := get0 key = get0 pre ∧ (ofLex key).2.startWith (ofLex pre).2.1

/-- The made key is a lower bound of the keys with the prefix, and these are neighbours from there on. -/
structure PrefixMatcher.Convex {K E : Type} [LinearOrder K] (m : PrefixMatcher K E) : Prop where
  le_of_match : ∀ {key pre}, m.matchPrefix key pre = true → m.makeKeyByPrefix pre ≤ key
  match_of_between : ∀ {key key' pre}, m.makeKeyByPrefix pre ≤ key → key ≤ key' →
    m.matchPrefix key' pre = true → m.matchPrefix key pre = true

/-- The prefixes that a `CommonPrefixMatcher` knows. The first element is that of a pair, of a 3-tuple or of a
4-tuple, whose other elements are a pair or a tuple again. -/
inductive CommonPrefix : {K E : Type} → [LinearOrder K] → [DbUtil K] → PrefixMatcher K E → Prop
  | null {K : Type} [LinearOrder K] [DbUtil K] [LeastEmpty K] : CommonPrefix (nullMatcher K)
  | first {A B : Type} [LinearOrder A] [DbUtil A] [LeastEmpty A] [LinearOrder B] [DbUtil B] [LeastEmpty B] :
    CommonPrefix (commonPrefixMatcher A B)
  | firstTwo {A B C : Type} [LinearOrder A] [DbUtil A] [LeastEmpty A] [LinearOrder B] [DbUtil B] [LeastEmpty B]
      [LinearOrder C] [DbUtil C] [LeastEmpty C] : CommonPrefix (firstTwoMatcher A B C)
  | tailKey {A : Type} [LinearOrder A] [DbUtil A] [LeastEmpty A] {n : ℕ} : CommonPrefix (tailKeyMatcher A n)

section Convex

variable {A B C : Type} [LinearOrder A] [LinearOrder B] [LinearOrder C]

theorem lex_le_iff {key key' : A ×ₗ B} : key ≤ key' ↔
    get0 key < get0 key' ∨ get0 key = get0 key' ∧ (ofLex key).2 ≤ (ofLex key').2 :=
  Prod.Lex.le_iff

theorem snd_between {k₁ key k₂ : A ×ₗ B} (h₁ : k₁ ≤ key) (h₂ : key ≤ k₂) (h : get0 k₁ = get0 k₂) :
    get0 key = get0 k₂ ∧ (ofLex k₁).2 ≤ (ofLex key).2 ∧ (ofLex key).2 ≤ (ofLex k₂).2 := by
  have h₀ : get0 key = get0 k₂ := le_antisymm (get0_le h₂) (h ▸ get0_le h₁)
  rw [lex_le_iff] at h₁ h₂
  rw [h, h₀] at h₁
  rw [h₀] at h₂
  exact ⟨h₀, (h₁.resolve_left (lt_irrefl _)).2, (h₂.resolve_left (lt_irrefl _)).2⟩

theorem convex_null [DbUtil A] [LeastEmpty A] : (nullMatcher A).Convex where
  le_of_match _ := LeastEmpty.makeEmptyValue_le _
  match_of_between _ _ _ := rfl

theorem convex_first [DbUtil B] [LeastEmpty B] : (commonPrefixMatcher A B).Convex where
  le_of_match h := lex_le_iff.mpr (.inr ⟨(of_decide_eq_true h).symm, LeastEmpty.makeEmptyValue_le _⟩)
  match_of_between h₁ h₂ h :=
    decide_eq_true ((snd_between h₁ h₂ (of_decide_eq_true h).symm).1.trans (of_decide_eq_true h))

theorem convex_firstTwo [DbUtil C] [LeastEmpty C] : (firstTwoMatcher A B C).Convex where
  le_of_match h := by
    obtain ⟨h₀, h₁⟩ := of_decide_eq_true h
    exact lex_le_iff.mpr (.inr ⟨h₀.symm, lex_le_iff.mpr (.inr ⟨h₁.symm, LeastEmpty.makeEmptyValue_le _⟩)⟩)
  match_of_between h₁ h₂ h := by
    obtain ⟨hfst, hsnd⟩ := of_decide_eq_true h
    obtain ⟨h₀, hle₁, hle₂⟩ := snd_between h₁ h₂ hfst.symm
    exact decide_eq_true ⟨h₀.trans hfst, (snd_between hle₁ hle₂ hsnd.symm).1.trans hsnd⟩

theorem tailKey_match_iff {n : ℕ} {key pre : A ×ₗ CDBTailKey n} : (tailKeyMatcher A n).matchPrefix key pre = true ↔
    get0 key = get0 pre ∧ (ofLex pre).2.1 <+: (ofLex key).2.1 := by
  unfold tailKeyMatcher CDBTailKey.startWith
  rw [decide_eq_true_iff, List.isPrefixOf_iff_prefix]

theorem convex_tailKey {n : ℕ} : (tailKeyMatcher A n).Convex where
  le_of_match h := by
    obtain ⟨h₀, t, ht⟩ := tailKey_match_iff.mp h
    refine lex_le_iff.mpr (.inr ⟨h₀.symm, ?_⟩)
    rw [← Subtype.coe_le_coe, ← ht]
    exact le_append _ _
  match_of_between h₁ h₂ h := by
    obtain ⟨hfst, t, ht⟩ := tailKey_match_iff.mp h
    obtain ⟨h₀, hle₁, hle₂⟩ := snd_between h₁ h₂ hfst.symm
    rw [← Subtype.coe_le_coe, ← ht] at hle₂
    exact tailKey_match_iff.mpr ⟨h₀.trans hfst, prefix_of_between hle₁ hle₂⟩

end Convex

section Exact

variable {K E V : Type} [LinearOrder K] [DbUtil K] {m : PrefixMatcher K E}

theorem CommonPrefix.convex (h : CommonPrefix m) : m.Convex := by
  cases h with
  | null => exact convex_null
  | first => exact convex_first
  | firstTwo => exact convex_firstTwo
  | tailKey => exact convex_tailKey

theorem CommonPrefix.leastEmpty (h : CommonPrefix m) : LeastEmpty K := by
  cases h <;> infer_instance

/-- A seek of an empty key goes to the least key, and that is where the empty key is. -/
theorem mem_bound_seek [LeastEmpty K] {a key : K} : (Start.seek (some a)).bound.Mem key ↔ a ≤ key := by
  simp only [Start.bound]
  split_ifs with he
  · exact iff_of_true trivial (LeastEmpty.le_of_isEmpty a he key)
  · exact Iff.rfl

variable [Serial K] [LawfulSerial K] [Serial V] [LawfulSerial V] [DbUtil V] {acc : CDBAccess} {p : PrefixType}

omit [DbUtil K] in
/-- **From a bound above the made key on**, the entries with the prefix come first. -/
theorem mem_takeWhile_matchPrefix (hm : m.Convex) (hp : p.InUse) (hord : SameOrder K) (hdb : WellStored K V acc p)
    {s : CacheStack K V} (hs : s ≠ []) {pre : E} {bound : Bound K}
    (hbound : ∀ key, bound.Mem key → m.makeKeyByPrefix pre ≤ key) :
    Ascending ((stackStream acc p s bound).takeWhile fun e => m.matchPrefix e.1 pre) ∧ ∀ key value,
      (key, value) ∈ (stackStream acc p s bound).takeWhile (fun e => m.matchPrefix e.1 pre) ↔
        (CacheStack.view acc p s key = some value ∧ bound.Mem key) ∧ m.matchPrefix key pre = true := by
  obtain ⟨c, base, rfl⟩ := List.exists_cons_of_ne_nil hs
  have hasc := (live_lookup_stackStream hp hord hdb bound (c :: base)).1
  have hmem : ∀ key value, (key, value) ∈ stackStream acc p (c :: base) bound ↔
      CacheStack.view acc p (c :: base) key = some value ∧ bound.Mem key := fun _ _ =>
    mem_stackStream hp hord hdb bound c base
  have hfilter := (takeWhile_eq_filter (q := fun e => m.matchPrefix e.1 pre) (hasc.imp_of_mem fun he _ hlt =>
    hm.match_of_between (hbound _ ((hmem _ _).mp he).2) hlt.le)).1
  rw [hfilter]
  refine ⟨hasc.filter _, fun key value => ?_⟩
  rw [List.mem_filter, hmem]

theorem walk_prefixIterator (m : PrefixMatcher K E) (hp : p.InUse) (hdb : WellStored K V acc p)
    (s : CacheStack K V) (prefixElement : E)
    (st : (CacheStack.create acc p s).State) :
    (prefixIterator m prefixElement (CacheStack.create acc p s)).walk .first st =
      some ((stackStream acc p s (Start.seek (some (m.makeKeyByPrefix prefixElement))).bound).takeWhile
        fun e => m.matchPrefix e.1 prefixElement) := by
  obtain ⟨st', hst', henum⟩ :=
    CacheStack.create_yields hp hdb s (.seek (some (m.makeKeyByPrefix prefixElement))) st
  have hpre := enumerates_prefixIterator m prefixElement henum
  have hfirst : (prefixIterator m prefixElement (CacheStack.create acc p s)).begin .first st = some st' := hst'
  exact (congrArg (Option.bind · _) hfirst).trans (hpre.visited (Nat.lt_succ_of_le hpre.length_le))

/-- **Prefix iteration is exact.** -/
theorem prefix_iteration_exact (hm : CommonPrefix m) (hp : p.InUse) (hord : SameOrder K)
    (hdb : WellStored K V acc p) (c : IneryCompositeKVCache K V) (s : CacheStack K V) (prefixElement : E)
    (st : (CacheStack.create acc p (c :: s)).State) :
    ∃ entries, (prefixIterator m prefixElement (CacheStack.create acc p (c :: s))).walk .first st = some entries ∧
      entries.Pairwise (fun e e' => e.1 < e'.1) ∧ ∀ key value, (key, value) ∈ entries ↔
        CacheStack.view acc p (c :: s) key = some value ∧ m.matchPrefix key prefixElement = true := by
  have hleast := hm.leastEmpty
  obtain ⟨hasc, hmem⟩ := mem_takeWhile_matchPrefix hm.convex hp hord hdb (List.cons_ne_nil c s)
    fun key hkey => mem_bound_seek.mp hkey
  refine ⟨_, walk_prefixIterator m hp hdb (c :: s) prefixElement st, hasc, fun key value => ?_⟩
  rw [hmem, mem_bound_seek, and_assoc]
  exact and_congr_right fun _ => and_iff_right_of_imp hm.convex.le_of_match

end Exact

/-- A deletion over the first key with the prefix, and a live key behind the last one. -/
theorem prefix_iteration_exact_firstTwo :
    let key : Byte → Byte → Byte → Byte ×ₗ Byte ×ₗ Byte := fun a b c => toLex (a, toLex (b, c))
    let c : IneryCompositeKVCache (Byte ×ₗ Byte ×ₗ Byte) Byte :=
      ⟨((∅ : SortedMap _ _).insert (key 1 2 0) 0).insert (key 1 3 0) 9, false, 0⟩
    let b : IneryCompositeKVCache (Byte ×ₗ Byte ×ₗ Byte) Byte :=
      ⟨((∅ : SortedMap _ _).insert (key 1 2 0) 7).insert (key 1 2 5) 8, true, 8⟩
    let it :=
      prefixIterator (firstTwoMatcher Byte Byte Byte) (1, 2) (CacheStack.create ⟨.account, ∅⟩ .keyidAccount [c, b])
    ∃ entries, it.walk .first it.init = some entries ∧
      (key 1 2 0, 7) ∉ entries ∧ (key 1 2 5, 8) ∈ entries ∧ (key 1 3 0, 9) ∉ entries := by
  intro key c b it
  have hdb : WellStored (Byte ×ₗ Byte ×ₗ Byte) Byte ⟨.account, ∅⟩ .keyidAccount := fun _ hr => nomatch hr
  obtain ⟨entries, hwalk, -, hmem⟩ :=
    prefix_iteration_exact (CommonPrefix.firstTwo (A := Byte) (B := Byte) (C := Byte))
    (by decide) (sameOrder_prod sameOrder_byte (sameOrder_prod sameOrder_byte sameOrder_byte)) hdb c [b]
      (1, 2) it.init
  refine ⟨entries, hwalk, ?_, ?_, ?_⟩
  · rw [hmem]
    exact fun h => absurd h.1 (by decide)
  · exact (hmem _ _).mpr ⟨by decide, by decide⟩
  · rw [hmem]
    exact fun h => absurd h.2 (by decide)

end Inery
