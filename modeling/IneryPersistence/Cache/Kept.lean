import IneryPersistence.Cache.Levels
import IneryPersistence.Cache.SimpleRefine

/-!
# What is left of a stored value

A value is stored through the top cache of a stack. Reads, flushes and writes of other keys at any level, and
whatever other caches do to the same database, leave it.

* `LevelOp`, `CacheLevels`, `step`: operations of the caches of a stack, and of others;
* `view_step`, **`view_run`**, **`getData_setData_run`**: the value of a key in a composite cache;
* `singleView_step`, **`getData_setSingle_run`**: the value of a simple cache.
-/

namespace Inery

open KV

/-- An operation of the cache at a level, or what other caches do to the database. -/
inductive LevelOp (Op : Type)
  | cache (i : ℕ) (op : Op)
  | database (acc : CDBAccess)

section Composite

variable {K V : Type} [LinearOrder K] [Serial K] [DbUtil K] [Serial V] [DbUtil V]

/-- Reads, flushes, and writes of other keys than `k`. -/
def CacheOp.Leaves (k : K) : CacheOp K V → Prop
  | .getData _ | .hasData _ | .flush => True
  | .setData key _ | .eraseData key => key ≠ k
  | .undoData dbOpLog => ∀ key, unser dbOpLog.key = some key → key.1 ≠ k
  | .clear => False

/-- The levels of a stack over a database, and the log of each level. -/
structure CacheLevels (K V : Type) [LinearOrder K] where
  acc : CDBAccess
  caches : CacheStack K V
  log : ℕ → Option CDBOpLogMap

namespace CacheLevels

variable (p : PrefixType)

/-- One operation; `none` when it throws, or when there is no such level. -/
def step (st : CacheLevels K V) : LevelOp (CacheOp K V) → Option (CacheLevels K V)
  | .cache i op =>
    match st.caches.drop i with
    | c :: base => (op.apply st.acc p (st.log i) c base).map fun r =>
      ⟨r.1, st.caches.take i ++ r.2.1, Function.update st.log i r.2.2⟩
    | [] => none
  | .database acc => some { st with acc := acc }

/-- What a write of the top cache leaves. -/
def write (st : CacheLevels K V) (r : CacheStack K V × Bool × Option CDBOpLogMap) : CacheLevels K V :=
  { st with caches := r.1, log := Function.update st.log 0 r.2.2 }

/-- The operation does not write `k`, and others leave the records of the prefix. -/
def Leaves (k : K) (st : CacheLevels K V) : LevelOp (CacheOp K V) → Prop
  | .cache _ op => op.Leaves k
  | .database acc => SameRecords p st.acc acc

variable {p} [LawfulSerial K] [LawfulSerial V] [LawfulDbUtil V]

theorem view_apply {k : K} {acc : CDBAccess} {log : Option CDBOpLogMap} {c : IneryCompositeKVCache K V}
    {base : CacheStack K V} {op : CacheOp K V} (hop : op.Leaves k)
    {r : CDBAccess × CacheStack K V × Option CDBOpLogMap} (h : op.apply acc p log c base = some r) :
    CacheStack.view r.1 p r.2.1 k = CacheStack.view acc p (c :: base) k := by
  have hget : ∀ key : K, CacheStack.view acc p (CacheStack.getData acc p (c :: base) key).1 k =
      CacheStack.view acc p (c :: base) k := by
    intro key
    obtain ⟨c', s', hcons, hview⟩ := CacheStack.getData_cons acc p c base key
    rw [hcons, hview]
  cases op with
  | getData key =>
    obtain rfl := Option.some.inj h
    exact hget key
  | hasData key =>
    obtain rfl := Option.some.inj h
    dsimp only
    rw [CacheStack.hasData_fst]
    exact hget key
  | setData key v =>
    obtain rfl := Option.some.inj h
    cases hkey : isEmpty key with
    | true => rw [CacheStack.setData, if_pos hkey]
    | false =>
      dsimp only
      rw [CacheStack.view_setData acc p hkey log c base v, Function.update_of_ne (Ne.symm hop)]
  | eraseData key =>
    obtain rfl := Option.some.inj h
    cases hkey : isEmpty key with
    | true => rw [CacheStack.eraseData, if_pos hkey]
    | false =>
      dsimp only
      rw [CacheStack.view_eraseData acc p hkey log c base, Function.update_of_ne (Ne.symm hop)]
  | undoData dbOpLog =>
    obtain ⟨c', hundo, rfl⟩ := Option.map_eq_some_iff.mp h
    obtain ⟨key, hkey, hundo⟩ := Option.bind_eq_some_iff.mp hundo
    obtain ⟨v, -, rfl⟩ := Option.map_eq_some_iff.mp hundo
    have hfind : (c.setDataToSelf key.1 v.1).mapData.find? k = c.mapData.find? k := by
      rw [IneryCompositeKVCache.setDataToSelf_mapData,
        SortedMap.find?_insert_of_ne _ (Ne.symm (hop key hkey))]
    simp only [CacheStack.view, CacheStack.find_cons, override, hfind]
  | clear => exact absurd hop id
  | flush =>
    obtain rfl := Option.some.inj h
    exact congrFun (CacheStack.view_flush acc p (genDbKey_injective p) c base) k

theorem view_step {k : K} {st st' : CacheLevels K V} {op : LevelOp (CacheOp K V)} (hop : Leaves p k st op)
    (h : step p st op = some st') :
    CacheStack.view st'.acc p st'.caches k = CacheStack.view st.acc p st.caches k := by
  cases op with
  | database acc =>
    obtain rfl := Option.some.inj h
    exact congrFun (CacheStack.view_of_getData st.acc p (hop.getData K V) st.caches) k
  | cache i op =>
    rw [step] at h
    split at h
    · next c base hdrop =>
      obtain ⟨r, hr, rfl⟩ := Option.map_eq_some_iff.mp h
      have hsplit : st.caches = st.caches.take i ++ c :: base := by
        rw [← hdrop, List.take_append_drop]
      conv_rhs => rw [hsplit]
      exact CacheStack.view_append_at _ p _ (view_apply hop hr)
    · cases h

theorem view_run {k : K} {st st' : CacheLevels K V} {ops : List (LevelOp (CacheOp K V))}
    (hops : AllSteps (step p) (Leaves p k) st ops) (h : run (step p) st ops = some st') :
    CacheStack.view st'.acc p st'.caches k = CacheStack.view st.acc p st.caches k :=
  run_invariant (step p)
    (I := fun st' => CacheStack.view st'.acc p st'.caches k = CacheStack.view st.acc p st.caches k)
    (fun _ _ _ hI hop hstep => (view_step hop hstep).trans hI) rfl hops h

/-- **`GetData` after `SetData`** and a run that does not write the key. -/
theorem getData_setData_run {k : K} (hk : isEmpty k = false) {st : CacheLevels K V} (hst : st.caches ≠ [])
    (v : V) {ops : List (LevelOp (CacheOp K V))} {st' : CacheLevels K V}
    (hops : AllSteps (step p) (Leaves p k)
      (st.write (CacheStack.setData st.acc p (st.log 0) st.caches k v)) ops)
    (h : run (step p) (st.write (CacheStack.setData st.acc p (st.log 0) st.caches k v)) ops = some st') :
    (CacheStack.getData st'.acc p st'.caches k).2 = live (some v) := by
  obtain ⟨s, log, hset, -, hview⟩ := CacheStack.setData_spec st.acc p hk (st.log 0) hst v
  rw [CacheStack.getData_snd st'.acc p hk, view_run hops h, hset]
  dsimp only [write]
  rw [hview, Function.update_self]

end CacheLevels

end Composite

/-! ## A single value -/

section Single

variable {V : Type} [Serial V] [DbUtil V]

/-- Reads and flushes. -/
def SingleOp.Leaves : SingleOp V → Prop
  | .getData | .hasData | .flush => True
  | _ => False

theorem SimpleStack.singleView_append {acc acc' : CDBAccess} (p : PrefixType) (us : SimpleStack V)
    {s s' : SimpleStack V} (h : view acc p s = view acc' p s') :
    view acc p (us ++ s) = view acc' p (us ++ s') := by
  induction us with
  | nil => exact h
  | cons c us ih =>
    obtain ⟨_ | v⟩ := c
    · exact ih
    · rfl

namespace SingleLevels

variable (p : PrefixType)

/-- One operation of the stack, or of others. -/
def stepWithOthers (st : SingleLevels V) : LevelOp (SingleOp V) → Option (SingleLevels V)
  | .cache i op => step p st (i, op)
  | .database acc => some { st with acc := acc }

/-- The operation does not write, and others leave the record of the prefix. -/
def Leaves (st : SingleLevels V) : LevelOp (SingleOp V) → Prop
  | .cache _ op => op.Leaves
  | .database acc => SameRecords p st.acc acc

variable {p} [LawfulSerial V] [LawfulDbUtil V]

theorem singleView_step {v : Option V} {st st' : SingleLevels V} {op : LevelOp (SingleOp V)}
    (hst : SimpleStack.SingleStored V st.acc p ∧ SimpleStack.view st.acc p st.caches = v)
    (hop : Leaves p st op) (h : stepWithOthers p st op = some st') :
    SimpleStack.SingleStored V st'.acc p ∧ SimpleStack.view st'.acc p st'.caches = v := by
  obtain ⟨hacc, rfl⟩ := hst
  cases op with
  | database acc =>
    obtain rfl := Option.some.inj h
    have hsingle := hop.getSingle V
    exact ⟨fun v hv => hacc v (hsingle ▸ hv), SimpleStack.view_of_getSingle st.acc p hsingle st.caches⟩
  | cache i op =>
    rw [stepWithOthers, step] at h
    split at h
    · next c base hdrop =>
      obtain ⟨r, hr, rfl⟩ := Option.map_eq_some_iff.mp h
      have hsplit : st.caches = st.caches.take i ++ c :: base := by
        rw [← hdrop, List.take_append_drop]
      have href := SimpleStack.refinesValue hacc (st.log i) [] c base
      have happ : SimpleStack.view r.1 p r.2.1 = SimpleStack.view st.acc p (c :: base) →
          SimpleStack.view r.1 p (st.caches.take i ++ r.2.1) = SimpleStack.view st.acc p st.caches := by
        intro hview
        conv_rhs => rw [hsplit]
        exact SimpleStack.singleView_append p _ hview
      cases op with
      | getData =>
        obtain ⟨s, hget, hview⟩ := href.getData
        rw [SingleOp.apply, hget] at hr
        obtain rfl := Option.some.inj hr
        exact ⟨hacc, happ (hview 0)⟩
      | hasData =>
        obtain ⟨s, hhas, hview⟩ := href.hasData
        rw [SingleOp.apply, hhas] at hr
        obtain rfl := Option.some.inj hr
        exact ⟨hacc, happ (hview 0)⟩
      | flush =>
        obtain ⟨s, hflush, -, hview, -⟩ := href.flush
        obtain rfl := Option.some.inj hr
        refine ⟨SimpleStack.singleStored_flush st.acc p hacc (c :: base), happ ?_⟩
        dsimp only
        rw [hflush]
        exact hview
      | setData | eraseData | undoData | clear => exact absurd hop id
    · cases h

theorem singleView_run {v : Option V} {st st' : SingleLevels V} {ops : List (LevelOp (SingleOp V))}
    (hst : SimpleStack.SingleStored V st.acc p ∧ SimpleStack.view st.acc p st.caches = v)
    (hops : AllSteps (stepWithOthers p) (Leaves p) st ops) (h : run (stepWithOthers p) st ops = some st') :
    SimpleStack.SingleStored V st'.acc p ∧ SimpleStack.view st'.acc p st'.caches = v :=
  run_invariant (stepWithOthers p) (fun _ _ _ hI hop hstep => singleView_step hI hop hstep) hst hops h

/-- What a write of the top cache leaves. -/
def write (st : SingleLevels V) (r : SimpleStack V × Option CDBOpLogMap) : SingleLevels V :=
  { st with caches := r.1, log := Function.update st.log 0 r.2 }

/-- **`GetData` after `SetData`** and a run that does not write. -/
theorem getData_setSingle_run {st : SingleLevels V} (hst : SimpleStack.SingleStored V st.acc p)
    (hne : st.caches ≠ []) {v : V} {r : SimpleStack V × Option CDBOpLogMap}
    (hset : SimpleStack.setData st.acc p (st.log 0) st.caches v = some r)
    {ops : List (LevelOp (SingleOp V))} {st' : SingleLevels V}
    (hops : AllSteps (stepWithOthers p) (Leaves p) (st.write r) ops)
    (h : run (stepWithOthers p) (st.write r) ops = some st') :
    ∃ s', SimpleStack.getData st'.acc p st'.caches = some (s', live (some v)) := by
  have hstart : SimpleStack.SingleStored V (st.write r).acc p ∧
      SimpleStack.view (st.write r).acc p (st.write r).caches = live (some v) := by
    refine ⟨hst, ?_⟩
    obtain ⟨c, base, hcons⟩ := List.exists_cons_of_ne_nil hne
    rw [hcons] at hset
    obtain ⟨-, s', hs', -⟩ := SimpleStack.setData_cons st.acc p hset
    rw [write, hs']
    rfl
  obtain ⟨hacc, hview'⟩ := singleView_run hstart hops h
  obtain ⟨r', hr'⟩ := SimpleStack.getDataPtr_isSome st'.acc p hacc st'.caches
  refine ⟨r'.1, ?_⟩
  rw [SimpleStack.getData, hr', Option.map_some, (SimpleStack.getDataPtr_spec st'.acc p hr').1, ← hview']
  rfl

end SingleLevels

end Single

end Inery
