import IneryPersistence.Cache.Size
import IneryPersistence.Undo.Wrapper

/-!
# The size of a domain cache

`GetCacheSize` of a domain class adds up the sizes of its members, from a list of its own.

* `DomainCache.counted`: the members on that list; two classes leave one out that they flush;
* `DomainLevels`, `DomainOp`, `step`: the members of a class on a database, with the caches above them;
* `getCacheSize`, `flushSize`: what the class reports, and what its `Flush` would write;
* `counted_step`: one operation; **`cache_size_iff`**: after every run the two are the same exactly if the members
  that are left out hold nothing.
-/

namespace Inery

open KV

namespace DomainCache

open PrefixType

/-- The members that `GetCacheSize` adds up. -/
def counted : DomainCache → List PrefixType
  | sysParamCache => [sysParam, producerFee, cdpInterestParams, totalBpsSize, newTotalBpsSize]
  | contractCache => [contractDef, contractData, contractTraces]
  | d => d.flushed

end DomainCache

/-- `GetCacheSize` of an `InerySimpleKVCache`. -/
def InerySimpleKVCache.getCacheSize {V : Type} [Serial V] (c : InerySimpleKVCache V) : UInt32 :=
  match c.ptrData with
  | none => 0
  | some v => calcDataSize v

/-- The members of a class on a database, each under the caches that stand on it. -/
structure DomainLevels (Key Val : PrefixType → Type) [∀ p, LinearOrder (Key p)] where
  acc : CDBAccess
  composite : ∀ p, CacheStack (Key p) (Val p)
  simple : ∀ p, SimpleStack (Val p)
  log : PrefixType → ℕ → Option CDBOpLogMap

/-- An operation of a member, or of a cache above it. -/
inductive DomainOp (Key Val : PrefixType → Type)
  | composite (p : PrefixType) (i : ℕ) (op : CacheOp (Key p) (Val p))
  | simple (p : PrefixType) (i : ℕ) (op : SingleOp (Val p))

namespace DomainLevels

variable {Key Val : PrefixType → Type} [∀ p, LinearOrder (Key p)] [∀ p, Serial (Key p)]
  [∀ p, DbUtil (Key p)] [∀ p, Serial (Val p)] [∀ p, DbUtil (Val p)]

/-- The levels of a composite member. -/
def compositeLevels (st : DomainLevels Key Val) (p : PrefixType) : CacheLevels (Key p) (Val p) :=
  ⟨st.acc, st.composite p, st.log p⟩

/-- The levels of a simple member. -/
def simpleLevels (st : DomainLevels Key Val) (p : PrefixType) : SingleLevels (Val p) :=
  ⟨st.acc, st.simple p, st.log p⟩

def step (st : DomainLevels Key Val) : DomainOp Key Val → Option (DomainLevels Key Val)
  | .composite p i op => ((st.compositeLevels p).step p (.cache i op)).map fun r =>
    { st with
      acc := r.acc
      composite := Function.update st.composite p r.caches
      log := Function.update st.log p r.log }
  | .simple p i op => ((st.simpleLevels p).step p (i, op)).map fun r =>
    { st with
      acc := r.acc
      simple := Function.update st.simple p r.caches
      log := Function.update st.log p r.log }

/-- `GetCacheSize` of a member. -/
def memberSize (st : DomainLevels Key Val) (p : PrefixType) : UInt32 :=
  if p.isSimple then ((st.simple p).getLast?.map InerySimpleKVCache.getCacheSize).getD 0
  else ((st.composite p).getLast?.map IneryCompositeKVCache.size).getD 0

/-- `GetCacheSize` of a class. -/
def getCacheSize (d : DomainCache) (st : DomainLevels Key Val) : UInt32 := (d.counted.map st.memberSize).sum

/-- The bytes that `Flush` of a member would write. -/
def writtenSize (st : DomainLevels Key Val) (p : PrefixType) : ℕ :=
  if p.isSimple then ((st.simple p).getLast?.bind InerySimpleKVCache.ptrData).elim 0 fun v => (ser v).length
  else (st.composite p).getLast?.elim 0 fun c => dataSize c.mapData

/-- The bytes that `Flush` of a class would write. -/
def flushSize (d : DomainCache) (st : DomainLevels Key Val) : ℕ := (d.flushed.map st.writtenSize).sum

/-- The members were just built on the database. -/
def Built (d : DomainCache) (st : DomainLevels Key Val) : Prop :=
  ∀ p ∈ d.flushed, (st.composite p).getLast? = some ⟨∅, true, 0⟩ ∧ (st.simple p).getLast? = some ⟨none⟩

/-- The count of the member has room for every value that the operation writes to it. -/
def Fits (st : DomainLevels Key Val) : DomainOp Key Val → Prop
  | .composite p i op => ∀ root ∈ (st.composite p).getLast?, FitsAll root
      ((st.compositeLevels p).rootWrites p (.cache i op))
  | .simple _ _ _ => True

/-- The composite members count right. -/
def Counted (d : DomainCache) (st : DomainLevels Key Val) : Prop :=
  ∀ p ∈ d.flushed, ∀ root ∈ (st.composite p).getLast?, root.Counted

variable {d : DomainCache} {st st' : DomainLevels Key Val}

omit [∀ p, DbUtil (Key p)] [∀ p, DbUtil (Val p)] in
theorem Built.counted (h : Built d st) : Counted d st := by
  intro p hp root hroot
  rw [(h p hp).1] at hroot
  obtain rfl := Option.some.inj hroot
  exact ⟨rfl, rfl⟩

theorem counted_step {op : DomainOp Key Val} (hst : Counted d st) (hfits : Fits st op) (h : step st op = some st') :
    Counted d st' := by
  cases op with
  | composite q i op =>
    obtain ⟨r, hr, rfl⟩ := Option.map_eq_some_iff.mp h
    intro p hp root hroot
    have hroot' : root ∈ (Function.update st.composite q r.caches p).getLast? := hroot
    by_cases hpq : p = q
    · subst hpq
      rw [Function.update_self] at hroot'
      have hroom : ∀ root ∈ (st.compositeLevels p).caches.getLast?,
          FitsAll root ((st.compositeLevels p).rootWrites p (.cache i op)) := hfits
      exact CacheLevels.counted_step (hst p hp) hroom hr root hroot'
    · rw [Function.update_of_ne hpq] at hroot'
      exact hst p hp root hroot'
  | simple q i op =>
    obtain ⟨r, -, rfl⟩ := Option.map_eq_some_iff.mp h
    exact hst

omit [∀ p, DbUtil (Key p)] [∀ p, DbUtil (Val p)] in
theorem toNat_memberSize (hst : Counted d st) {p : PrefixType} (hp : p ∈ d.flushed)
    (hlt : st.writtenSize p < 2 ^ 32) : (st.memberSize p).toNat = st.writtenSize p := by
  unfold memberSize
  unfold writtenSize at hlt ⊢
  split_ifs at hlt ⊢
  · cases hlast : (st.simple p).getLast? with
    | none => rfl
    | some c =>
      rw [hlast] at hlt
      obtain ⟨_ | v⟩ := c
      · rfl
      · exact toNat_calcDataSize hlt
  · cases hlast : (st.composite p).getLast? with
    | none => rfl
    | some c => exact (hst p hp c hlast).size

omit [∀ p, DbUtil (Key p)] [∀ p, DbUtil (Val p)] in
theorem writtenSize_le {p : PrefixType} (hp : p ∈ d.flushed) : st.writtenSize p ≤ flushSize d st :=
  List.single_le_sum (fun _ _ => Nat.zero_le _) _ (List.mem_map_of_mem hp)

omit [∀ p, DbUtil (Key p)] [∀ p, DbUtil (Val p)] in
/-- **The class reports** what the members on its list would write. -/
theorem toNat_getCacheSize (hst : Counted d st) (hlt : flushSize d st < 2 ^ 32) :
    (getCacheSize d st).toNat = (d.counted.map st.writtenSize).sum := by
  have hsub : ∀ p ∈ d.counted, p ∈ d.flushed := by cases d <;> decide
  have hmap : (d.counted.map st.memberSize).map UInt32.toNat = d.counted.map st.writtenSize := by
    rw [List.map_map]
    exact List.map_congr_left fun p hp =>
      toNat_memberSize hst (hsub p hp) ((writtenSize_le (hsub p hp)).trans_lt hlt)
  have hle : (d.counted.map st.writtenSize).sum ≤ flushSize d st := by
    cases d <;> simp only [flushSize, DomainCache.counted, DomainCache.flushed, List.map, List.sum_cons] <;> omega
  rw [getCacheSize, toNat_sum (by rw [hmap]; omega), hmap]

/-- **`GetCacheSize` is what `Flush` would write**, after every run of the members of a class that was built on a
database, exactly if the two members that are not on the lists hold nothing. -/
theorem cache_size_iff {ops : List (DomainOp Key Val)} (hst : Built d st) (hfits : AllSteps step Fits st ops)
    (h : run step st ops = some st') (hlt : flushSize d st' < 2 ^ 32) :
    (getCacheSize d st').toNat = flushSize d st' ↔
      (d = .sysParamCache → st'.writtenSize .cdpParam = 0) ∧
        (d = .contractCache → st'.writtenSize .contractAccount = 0) := by
  have hcounted : Counted d st' :=
    run_invariant step (fun _ _ _ hI hop hstep => counted_step hI hop hstep) hst.counted hfits h
  rw [toNat_getCacheSize hcounted hlt]
  cases d <;>
    simp only [flushSize, DomainCache.counted, DomainCache.flushed, List.map, List.sum_cons, reduceCtorEq,
      false_implies, true_implies, and_true, true_and] <;> omega

end DomainLevels

/-- A new class, with bytes for keys and values. -/
def newLevels : DomainLevels (fun _ => Byte) (fun _ => Byte) :=
  ⟨⟨.sysparam, ∅⟩, fun _ => [⟨∅, true, 0⟩], fun _ => [⟨none⟩], fun _ _ => none⟩

open DomainLevels in
theorem cache_size_iff_sysParam : ∃ st', run step newLevels [.composite .sysParam 0 (.setData 1 5)] = some st' ∧
    getCacheSize .sysParamCache st' = 2 ∧ (getCacheSize .sysParamCache st').toNat =
      flushSize .sysParamCache st' := by
  have hfits : AllSteps step Fits newLevels [.composite .sysParam 0 (.setData 1 5)] := by
    refine ⟨fun root hroot => ?_, fun _ _ => trivial⟩
    obtain rfl := Option.some.inj hroot
    exact ⟨show 2 < 2 ^ 32 by decide, trivial⟩
  refine ⟨_, rfl, by decide, ?_⟩
  exact (cache_size_iff (fun _ _ => ⟨rfl, rfl⟩) hfits rfl (by decide)).mpr ⟨fun _ => by decide, nofun⟩

open DomainLevels in
/-- **A parameter of a debt position, and an account of a contract, are stored and not counted.** -/
theorem stored_not_counted :
    (∃ st', run step newLevels [.composite .cdpParam 0 (.setData 1 5)] = some st' ∧
      getCacheSize .sysParamCache st' = 0 ∧ flushSize .sysParamCache st' = 2) ∧
    ∃ st', run step newLevels [.composite .contractAccount 0 (.setData 1 5)] = some st' ∧
      getCacheSize .contractCache st' = 0 ∧ flushSize .contractCache st' = 2 :=
  ⟨⟨_, rfl, by decide, by decide⟩, _, rfl, by decide, by decide⟩

end Inery
