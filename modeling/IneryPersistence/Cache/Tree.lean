import IneryPersistence.Cache.Size

/-!
# A tree of caches

Any number of caches stand on a cache that was built on a database, or on others that do.

* `CacheTree`: the caches by their `pBase` pointers, and `stack`: a cache with those under it;
* `TreeState`, `TreeOp`, `step`: operations of all these caches, in any order;
* `writeBack_root`, `length_apply`: where the caches of a stack go after an operation;
* **`root_step`**: what an operation of any cache writes to the root;
* **`cache_size_exact`**: the root counts its entries right after every run.
-/

namespace Inery

open KV

/-- Caches on one database: the base of each is nearer to the root, which stands on the database itself. -/
structure CacheTree where
  pBase : ℕ → Option ℕ
  root : ℕ
  depth : ℕ → ℕ
  pBase_root : pBase root = none
  exists_pBase : ∀ i, i ≠ root → ∃ j, pBase i = some j ∧ depth j < depth i

/-- The caches and the logs of a tree. -/
structure TreeState (K V : Type) [LinearOrder K] where
  acc : CDBAccess
  caches : ℕ → IneryCompositeKVCache K V
  log : ℕ → Option CDBOpLogMap

/-- An operation of a cache of the tree, or what other caches do to the database. -/
inductive TreeOp (K V : Type)
  | cache (i : ℕ) (op : CacheOp K V)
  | undoDataList (i : ℕ) (dbOpLogs : List CDbOpLog)
  | database (acc : CDBAccess)

/-- The caches of a stack are put back where they were. -/
def writeBack {A : Type} (caches : ℕ → A) : List ℕ → List A → ℕ → A
  | i :: is, c :: cs => Function.update (writeBack caches is cs) i c
  | _, _ => caches

namespace CacheTree

variable (t : CacheTree)

/-- A cache and those under it, as far as `n` pointers lead. -/
def stackFrom : ℕ → ℕ → List ℕ
  | 0, i => [i]
  | n + 1, i => i :: (t.pBase i).elim [] (stackFrom n)

/-- A cache and those under it, down to the root. -/
def stack (i : ℕ) : List ℕ := t.stackFrom (t.depth i) i

theorem depth_le_of_mem {n i j : ℕ} (h : j ∈ t.stackFrom n i) : t.depth j ≤ t.depth i := by
  induction n generalizing i with
  | zero => rw [List.mem_singleton.mp h]
  | succ n ih =>
    rcases List.mem_cons.mp h with rfl | h
    · exact le_rfl
    · by_cases hi : i = t.root
      · rw [hi, t.pBase_root] at h
        exact absurd h List.not_mem_nil
      · obtain ⟨b, hb, hlt⟩ := t.exists_pBase i hi
        rw [hb] at h
        exact (ih h).trans hlt.le

theorem nodup_stackFrom (n i : ℕ) : (t.stackFrom n i).Nodup := by
  induction n generalizing i with
  | zero => exact List.nodup_singleton i
  | succ n ih =>
    rw [stackFrom]
    by_cases hi : i = t.root
    · rw [hi, t.pBase_root]
      exact List.nodup_singleton _
    · -- all that lie under `i` are nearer to the root than `i` itself
      obtain ⟨b, hb, hlt⟩ := t.exists_pBase i hi
      rw [hb]
      refine List.nodup_cons.mpr ⟨fun h => ?_, ih b⟩
      exact absurd (t.depth_le_of_mem h) (not_le.mpr hlt)

theorem getLast?_stackFrom {n i : ℕ} (h : t.depth i ≤ n) : (t.stackFrom n i).getLast? = some t.root := by
  induction n generalizing i with
  | zero =>
    by_cases hi : i = t.root
    · rw [hi]
      rfl
    · obtain ⟨b, hb, hlt⟩ := t.exists_pBase i hi
      omega
  | succ n ih =>
    rw [stackFrom]
    by_cases hi : i = t.root
    · rw [hi, t.pBase_root]
      rfl
    · obtain ⟨b, hb, hlt⟩ := t.exists_pBase i hi
      have hlast := ih (i := b) (by omega)
      have hne : t.stackFrom n b ≠ [] := fun hnil => by
        rw [hnil] at hlast
        cases hlast
      rw [hb]
      exact (List.getLast?_cons_of_ne_nil hne).trans hlast

section Step

variable {K V : Type} [LinearOrder K] [Serial K] [DbUtil K] [Serial V] [DbUtil V] (p : PrefixType)

/-- One operation; `none` when it throws. -/
def step (st : TreeState K V) : TreeOp K V → Option (TreeState K V)
  | .cache i op =>
    match (t.stack i).map st.caches with
    | c :: base => (op.apply st.acc p (st.log i) c base).map fun r =>
      { acc := r.1
        caches := writeBack st.caches (t.stack i) r.2.1
        log := Function.update st.log i r.2.2 }
    | [] => none
  | .undoDataList i dbOpLogs => ((st.caches i).undoDataList dbOpLogs).map fun c =>
    { st with caches := Function.update st.caches i c }
  | .database acc => some { st with acc := acc }

/-- What an operation writes to the root. -/
def rootWrites (st : TreeState K V) : TreeOp K V → List (EntryWrite K V)
  | .cache i op =>
    match (t.stack i).map st.caches with
    | c :: base => op.rootWrites st.acc p c base
    | [] => []
  | .undoDataList i dbOpLogs =>
    if i = t.root then dbOpLogs.reverse.flatMap fun dbOpLog =>
      (CacheOp.undoData dbOpLog).rootWrites st.acc p (st.caches i) []
    else []
  | .database _ => []

/-- The count of the root has room for every value that the operation writes to it. -/
def Fits (st : TreeState K V) (op : TreeOp K V) : Prop := FitsAll (st.caches t.root) (t.rootWrites p st op)

/-- No subtraction that the operation makes at the root loses anything. -/
def Exact (st : TreeState K V) (op : TreeOp K V) : Prop := ExactAll (st.caches t.root) (t.rootWrites p st op)

/-! ## What an operation does to the root -/

/-- **The root of a stack is put back.** -/
theorem writeBack_root {A : Type} (caches : ℕ → A) {is : List ℕ} {cs : List A} (hnodup : is.Nodup)
    (hlen : cs.length = is.length) {root : ℕ} (hroot : is.getLast? = some root) {c : A}
    (hc : cs.getLast? = some c) : writeBack caches is cs root = c := by
  induction is generalizing cs with
  | nil => cases hroot
  | cons i is ih =>
    obtain ⟨c₁, cs, rfl⟩ := List.exists_cons_of_length_eq_add_one hlen
    have hlen' : cs.length = is.length := Nat.succ.inj hlen
    rw [writeBack]
    cases is with
    | nil =>
      obtain rfl := List.length_eq_zero_iff.mp hlen'
      obtain rfl := Option.some.inj hroot
      exact (Function.update_self _ _ _).trans (Option.some.inj hc)
    | cons i' is =>
      rw [List.getLast?_cons_cons] at hroot
      have hne : root ≠ i := fun he => (List.nodup_cons.mp hnodup).1 (he ▸ List.mem_of_getLast? hroot)
      have hcs : cs ≠ [] := List.ne_nil_of_length_eq_add_one hlen'
      rw [List.getLast?_cons_of_ne_nil hcs] at hc
      rw [Function.update_of_ne hne]
      exact ih (List.nodup_cons.mp hnodup).2 hlen' hroot hc

variable {p} {acc : CDBAccess} {log : Option CDBOpLogMap} {c : IneryCompositeKVCache K V} {base : CacheStack K V}

theorem length_apply {op : CacheOp K V} {r : CDBAccess × CacheStack K V × Option CDBOpLogMap}
    (h : op.apply acc p log c base = some r) : r.2.1.length = (c :: base).length := by
  cases op with
  | getData key =>
    obtain rfl := Option.some.inj h
    exact CacheStack.length_getData acc p (c :: base) key
  | hasData key =>
    obtain rfl := Option.some.inj h
    dsimp only
    rw [CacheStack.hasData_fst]
    exact CacheStack.length_getData acc p (c :: base) key
  | setData key value =>
    obtain rfl := Option.some.inj h
    exact CacheStack.length_setData acc p log c base key value
  | eraseData key =>
    obtain rfl := Option.some.inj h
    exact CacheStack.length_eraseData acc p log c base key
  | undoData dbOpLog =>
    obtain ⟨c', -, rfl⟩ := Option.map_eq_some_iff.mp h
    rfl
  | clear =>
    obtain rfl := Option.some.inj h
    rfl
  | flush =>
    obtain rfl := Option.some.inj h
    exact CacheStack.length_flush acc p (c :: base)

theorem foldlM_undoData {c₀ c c' : IneryCompositeKVCache K V} {dbOpLogs : List CDbOpLog}
    (h : dbOpLogs.foldlM IneryCompositeKVCache.undoData c = some c') :
    c' = (dbOpLogs.flatMap fun dbOpLog => (CacheOp.undoData dbOpLog).rootWrites acc p c₀ []).foldl
      EntryWrite.apply c := by
  induction dbOpLogs generalizing c with
  | nil => exact (Option.some.inj h).symm
  | cons dbOpLog dbOpLogs ih =>
    rw [List.foldlM_cons] at h
    obtain ⟨c₁, h₁, h⟩ := Option.bind_eq_some_iff.mp h
    have hop : (CacheOp.undoData dbOpLog).apply acc p none c [] = some (acc, [c₁], none) :=
      Option.map_eq_some_iff.mpr ⟨c₁, h₁, rfl⟩
    have hfirst : c₁ = ((CacheOp.undoData dbOpLog).rootWrites acc p c []).foldl EntryWrite.apply c :=
      Option.some.inj (getLast?_apply hop)
    rw [List.flatMap_cons, List.foldl_append, ih h]
    subst hfirst
    rfl

variable {t} {st st' : TreeState K V} {op : TreeOp K V}

/-- **One operation of the tree** does to the root what its writes do. -/
theorem root_step (h : t.step p st op = some st') :
    st'.caches t.root = (t.rootWrites p st op).foldl EntryWrite.apply (st.caches t.root) := by
  cases op with
  | database acc =>
    obtain rfl := Option.some.inj h
    rfl
  | undoDataList i dbOpLogs =>
    obtain ⟨c, hc, rfl⟩ := Option.map_eq_some_iff.mp h
    rw [rootWrites]
    split_ifs with hi
    · subst hi
      exact (Function.update_self _ _ _).trans (foldlM_undoData hc)
    · exact Function.update_of_ne (Ne.symm hi) _ _
  | cache i op =>
    have hlast := t.getLast?_stackFrom (le_refl (t.depth i))
    have hnodup := t.nodup_stackFrom (t.depth i) i
    rw [step] at h
    rw [rootWrites]
    cases hstack : (t.stack i).map st.caches with
    | nil =>
      rw [hstack] at h
      cases h
    | cons c base =>
      rw [hstack] at h
      obtain ⟨r, hr, rfl⟩ := Option.map_eq_some_iff.mp h
      have hlen : r.2.1.length = (t.stack i).length := by
        rw [length_apply hr, ← hstack, List.length_map]
      have hroot : (c :: base).getLast? = some (st.caches t.root) := by
        rw [← hstack, List.getLast?_map, stack, hlast]
        rfl
      refine writeBack_root st.caches hnodup hlen hlast ?_
      rw [getLast?_apply hr, hroot]
      rfl

/-- **One operation for whose writes there is room** keeps the count of the root right. -/
theorem counted_step (hst : (st.caches t.root).Counted) (hfits : t.Fits p st op) (h : t.step p st op = some st') :
    (st'.caches t.root).Counted := by
  rw [root_step h]
  exact counted_foldl hst hfits

/-- **The size of a cache on a database is exact.** After every run of its functions and of those of all caches that
stand on it, `GetCacheSize` is the sum of the bytes of its entries, and no guarded subtraction on the way has lost
anything, as long as the count has room for what comes in. -/
theorem cache_size_exact (hbuilt : st.caches t.root = ⟨∅, true, 0⟩) {ops : List (TreeOp K V)}
    (hfits : AllSteps (t.step p) (t.Fits p) st ops) (h : run (t.step p) st ops = some st') :
    (st'.caches t.root).getCacheSize.toNat = dataSize (st'.caches t.root).mapData ∧
      AllSteps (t.step p) (t.Exact p) st ops := by
  have hcounted : (st.caches t.root).Counted := by
    rw [hbuilt]
    exact ⟨rfl, rfl⟩
  have hstep : ∀ (st : TreeState K V) op st', (st.caches t.root).Counted → t.Fits p st op →
      t.step p st op = some st' → (st'.caches t.root).Counted := fun _ _ _ hst hfits h => counted_step hst hfits h
  constructor
  · exact (run_invariant (t.step p) hstep hcounted hfits h).size
  · exact allSteps_of_invariant (t.step p) hstep (fun _ _ hst hfits => exactAll_of_fitsAll hst hfits) hcounted hfits

end Step

/-- Any number of caches, all of them on the first one. -/
def star : CacheTree where
  pBase i := if i = 0 then none else some 0
  root := 0
  depth i := if i = 0 then 0 else 1
  pBase_root := rfl
  exists_pBase i hi := ⟨0, if_neg hi, by rw [if_neg hi]; exact Nat.one_pos⟩

/-- New caches, with bytes for keys and values. -/
def newCaches : TreeState Byte Byte :=
  ⟨⟨.sysparam, ∅⟩, fun i => ⟨∅, i == 0, 0⟩, fun _ => none⟩

theorem cache_size_exact_star :
    ∃ st', run (star.step .sysParam) newCaches [.cache 1 (.setData 1 5), .cache 1 .flush, .cache 0 (.eraseData 1)] =
      some st' ∧ (st'.caches 0).getCacheSize.toNat = dataSize (st'.caches 0).mapData ∧
      (st'.caches 0).getCacheSize = 2 := by
  have hfits : AllSteps (star.step .sysParam) (star.Fits .sysParam) newCaches
      [.cache 1 (.setData 1 5), .cache 1 .flush, .cache 0 (.eraseData 1)] := by
    refine ⟨trivial, fun st₁ h₁ => ?_⟩
    obtain rfl := Option.some.inj h₁
    refine ⟨⟨show 2 < 2 ^ 32 by decide, trivial⟩, fun st₂ h₂ => ?_⟩
    obtain rfl := Option.some.inj h₂
    refine ⟨⟨fun r hr => ?_, trivial⟩, fun _ _ => trivial⟩
    obtain rfl := Option.some.inj hr
    exact show 2 < 2 ^ 32 by decide
  exact ⟨_, rfl, (cache_size_exact rfl hfits rfl).1, by decide⟩

end CacheTree

end Inery
