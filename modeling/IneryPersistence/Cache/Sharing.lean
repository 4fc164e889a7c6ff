import IneryPersistence.Cache.Refine
import IneryPersistence.Cache.Simple
import IneryPersistence.Lib.Runs

/-!
# Two caches over one base

A flush writes every entry of a cache, those that a read copied into it as well as those that were
set. With a second cache over the same base, a copy can be older than what the base holds by then.

* `CacheOp`, `SharedCaches`, `SingleOp`, `SharedSingles`: any interleaving of two caches' operations;
* `firstCopy`: the entry that the first read of a key copied into the cache `b`;
* `find?_step`, `find?_run`: as long as `b` only reads the key, this is its entry there;
* **`flush_writes_back_first_copy`**: and this is what its flush leaves in the base;
* `flush_loses_update`: an update the other cache flushed in between is lost.
-/

namespace Inery

open KV

/-- The two caches. -/
inductive Side
  | a | b
deriving DecidableEq

/-! ## Composite caches -/

/-- The public operations of a composite cache. -/
inductive CacheOp (K V : Type)
  | getData (key : K)
  | hasData (key : K)
  | setData (key : K) (value : V)
  | eraseData (key : K)
  | undoData (dbOpLog : CDbOpLog)
  | clear
  | flush

section Composite

variable {K V : Type} [LinearOrder K] [Serial K] [DbUtil K] [Serial V] [DbUtil V]

/-- An operation on the cache `c` over `base`; `none` when it throws. -/
def CacheOp.apply (acc : CDBAccess) (p : PrefixType) (log : Option CDBOpLogMap)
    (c : IneryCompositeKVCache K V) (base : CacheStack K V) :
    CacheOp K V → Option (CDBAccess × CacheStack K V × Option CDBOpLogMap)
  | getData key => some (acc, (CacheStack.getData acc p (c :: base) key).1, log)
  | hasData key => some (acc, (CacheStack.hasData acc p (c :: base) key).1, log)
  | setData key value =>
    let r := CacheStack.setData acc p log (c :: base) key value
    some (acc, r.1, r.2.2)
  | eraseData key =>
    let r := CacheStack.eraseData acc p log (c :: base) key
    some (acc, r.1, r.2.2)
  | undoData dbOpLog => (c.undoData dbOpLog).map fun c' => (acc, c' :: base, log)
  | clear => some (acc, c.clear :: base, log)
  | flush =>
    let r := CacheStack.flush acc p (c :: base)
    some (r.1, r.2, log)

/-- `GetData` and `HasData` of `k`. -/
def CacheOp.reads (k : K) : CacheOp K V → Bool
  | getData key | hasData key => key = k
  | _ => false

/-- Neither a write of `k` nor a flush nor a clear. -/
def CacheOp.OnlyReads (k : K) : CacheOp K V → Prop
  | getData _ | hasData _ => True
  | setData key _ | eraseData key => key ≠ k
  | undoData dbOpLog => ∀ key, unser dbOpLog.key = some key → key.1 ≠ k
  | clear | flush => False

/-- Two composite caches over one base. -/
structure SharedCaches (K V : Type) [LinearOrder K] where
  acc : CDBAccess
  base : CacheStack K V
  cache : Side → IneryCompositeKVCache K V
  log : Side → Option CDBOpLogMap

namespace SharedCaches

variable (p : PrefixType)

/-- One operation of one of the caches. -/
def step (st : SharedCaches K V) (o : Side × CacheOp K V) : Option (SharedCaches K V) :=
  match o.2.apply st.acc p (st.log o.1) (st.cache o.1) st.base with
  | some (acc, c :: base, log) =>
    some ⟨acc, base, Function.update st.cache o.1 c, Function.update st.log o.1 log⟩
  | _ => none

/-- What a read of `k` by the cache `b` finds in the base. -/
def copied (k : K) (st : SharedCaches K V) (o : Side × CacheOp K V) : Option V :=
  if o.1 = .b ∧ o.2.reads k ∧ isEmpty k = false then CacheStack.find st.acc p st.base k else none

/-- The entry that the first read of `k` by the cache `b` copies, along a run. -/
def firstCopy (k : K) (st : SharedCaches K V) (os : List (Side × CacheOp K V)) : Option V :=
  firstSome (step p) (copied p k) st os

variable {p} {acc : CDBAccess} {log log' : Option CDBOpLogMap} {c c' : IneryCompositeKVCache K V}
  {base base' : CacheStack K V} {acc' : CDBAccess}

omit [DbUtil K] [DbUtil V] in
theorem find?_getDataIt_of_ne {k key : K} (hk : k ≠ key) {c₁ : IneryCompositeKVCache K V}
    {s' : CacheStack K V} (h : (CacheStack.getDataIt acc p key (c :: base)).1 = c₁ :: s') :
    c₁.mapData.find? k = c.mapData.find? k := by
  obtain ⟨c₂, s₂, h₂, -, hne⟩ := CacheStack.find?_getDataIt acc p key c base
  rw [h] at h₂
  obtain ⟨rfl, rfl⟩ := List.cons.inj h₂
  exact hne k hk

theorem find?_getData (k key : K)
    (h : (CacheStack.getData acc p (c :: base) key).1 = c' :: base') :
    c'.mapData.find? k = (c.mapData.find? k).or
      (if key = k ∧ isEmpty k = false then CacheStack.find acc p base k else none) := by
  unfold CacheStack.getData at h
  split_ifs at h with he
  · obtain ⟨rfl, rfl⟩ := List.cons.inj h
    have hno : ¬(key = k ∧ isEmpty k = false) := fun hk => by simp [← hk.1, he] at hk
    rw [if_neg hno, Option.or_none]
  · by_cases hk : key = k
    · subst hk
      obtain ⟨c₂, s₂, h₂, hself, -⟩ := CacheStack.find?_getDataIt acc p key c base
      obtain ⟨rfl, rfl⟩ := List.cons.inj (h.symm.trans h₂)
      rw [hself, if_pos ⟨rfl, by simpa using he⟩]
      rfl
    · rw [if_neg fun h' => hk h'.1, Option.or_none]
      exact find?_getDataIt_of_ne (Ne.symm hk) h

theorem find?_setData_of_ne {k key : K} (hk : key ≠ k) {v : V}
    (h : (CacheStack.setData acc p log (c :: base) key v).1 = c' :: base') :
    c'.mapData.find? k = c.mapData.find? k := by
  cases he : isEmpty key with
  | true =>
    simp only [CacheStack.setData, he, if_true] at h
    rw [(List.cons.inj h).1]
  | false =>
    obtain ⟨c₁, c₂, s', hit, hc, hset⟩ := CacheStack.setData_cons acc p he log c base v
    rw [hset] at h
    rw [← (List.cons.inj h).1, hc, SortedMap.find?_insert_of_ne _ hk.symm]
    exact find?_getDataIt_of_ne hk.symm hit

theorem find?_eraseData_of_ne {k key : K} (hk : key ≠ k)
    (h : (CacheStack.eraseData acc p log (c :: base) key).1 = c' :: base') :
    c'.mapData.find? k = c.mapData.find? k := by
  cases he : isEmpty key with
  | true =>
    simp only [CacheStack.eraseData, he, if_true] at h
    rw [(List.cons.inj h).1]
  | false =>
    obtain ⟨-, her⟩ | ⟨old, c₁, c₂, s', -, hit, hc, her⟩ :=
      CacheStack.eraseData_cons acc p he log c base
    · rw [her] at h
      exact find?_getDataIt_of_ne hk.symm h
    · rw [her] at h
      rw [← (List.cons.inj h).1, hc, SortedMap.find?_insert_of_ne _ hk.symm]
      exact find?_getDataIt_of_ne hk.symm hit

theorem find?_apply {k : K} {op : CacheOp K V} (hop : op.OnlyReads k)
    (h : op.apply acc p log c base = some (acc', c' :: base', log')) :
    c'.mapData.find? k = (c.mapData.find? k).or
      (if op.reads k ∧ isEmpty k = false then CacheStack.find acc p base k else none) := by
  cases op with
  | getData key =>
    have hs := congrArg (fun r => r.2.1) (Option.some.inj h)
    simpa [CacheOp.reads] using find?_getData k key hs
  | hasData key =>
    have hs := congrArg (fun r => r.2.1) (Option.some.inj h)
    simpa [CacheOp.reads] using find?_getData k key ((CacheStack.hasData_fst _ _ _ key).symm.trans hs)
  | setData key value =>
    have hs := congrArg (fun r => r.2.1) (Option.some.inj h)
    simpa [CacheOp.reads] using find?_setData_of_ne hop hs
  | eraseData key =>
    have hs := congrArg (fun r => r.2.1) (Option.some.inj h)
    simpa [CacheOp.reads] using find?_eraseData_of_ne hop hs
  | undoData dbOpLog =>
    obtain ⟨c₁, hundo, hr⟩ := Option.map_eq_some_iff.mp h
    obtain ⟨key, hkey, hval⟩ := Option.bind_eq_some_iff.mp hundo
    obtain ⟨value, -, rfl⟩ := Option.map_eq_some_iff.mp hval
    have hs := (List.cons.inj (congrArg (fun r => r.2.1) hr)).1
    have hne : k ≠ key.1 := (hop key hkey).symm
    simp [CacheOp.reads, ← hs, SortedMap.find?_insert_of_ne _ hne]
  | clear | flush => exact hop.elim

theorem find?_step {k : K} {st st' : SharedCaches K V} {o : Side × CacheOp K V}
    (ho : o.1 = .b → o.2.OnlyReads k) (h : step p st o = some st') :
    (st'.cache .b).mapData.find? k = ((st.cache .b).mapData.find? k).or (copied p k st o) := by
  obtain ⟨side, op⟩ := o
  unfold step at h
  split at h
  · next acc' c' base' log' happly =>
    obtain rfl := Option.some.inj h
    cases side with
    | a => simp [copied]
    | b =>
      have hc := find?_apply (ho rfl) happly
      simpa [copied] using hc
  · exact absurd h nofun

/-- **A whole run**: the entry is the one that the first read copied. -/
theorem find?_run {k : K} {st st' : SharedCaches K V} {os : List (Side × CacheOp K V)}
    (hb : (st.cache .b).mapData.find? k = none) (hos : ∀ o ∈ os, o.1 = .b → o.2.OnlyReads k)
    (h : run (step p) st os = some st') :
    (st'.cache .b).mapData.find? k = firstCopy p k st os := by
  have hrun := run_firstSome (step p) (fun st => (st.cache .b).mapData.find? k) (copied p k)
    (fun _ _ _ ho => find?_step ho) hos h
  simpa [hb, firstCopy] using hrun

/-- The base of `b` after its `Flush`. -/
def viewAfterFlush (p : PrefixType) (st : SharedCaches K V) : K → Option V :=
  let r := CacheStack.flush st.acc p (st.cache .b :: st.base)
  CacheStack.view r.1 p (r.2.drop 1)

theorem viewAfterFlush_run [LawfulSerial V] (hinj : Function.Injective (genDbKey (K := K) p)) {k : K}
    {st st' : SharedCaches K V} {os : List (Side × CacheOp K V)}
    (hb : (st.cache .b).mapData.find? k = none) (hos : ∀ o ∈ os, o.1 = .b → o.2.OnlyReads k)
    (h : run (step p) st os = some st') :
    viewAfterFlush p st' k = live ((firstCopy p k st os).or (CacheStack.find st'.acc p st'.base k)) := by
  rw [viewAfterFlush, CacheStack.view_flush_base _ p hinj, ← find?_run hb hos h]
  rfl

end SharedCaches

end Composite

/-! ## Simple caches -/

/-- The public operations of a simple cache. -/
inductive SingleOp (V : Type)
  | getData
  | hasData
  | setData (value : V)
  | eraseData
  | undoData (dbOpLog : CDbOpLog)
  | clear
  | flush

section Simple

variable {V : Type} [Serial V] [DbUtil V]

/-- An operation on the cache `c` over `base`; `none` when it throws or stops the program. -/
def SingleOp.apply (acc : CDBAccess) (p : PrefixType) (log : Option CDBOpLogMap)
    (c : InerySimpleKVCache V) (base : SimpleStack V) :
    SingleOp V → Option (CDBAccess × SimpleStack V × Option CDBOpLogMap)
  | getData => (SimpleStack.getData acc p (c :: base)).map fun r => (acc, r.1, log)
  | hasData => (SimpleStack.hasData acc p (c :: base)).map fun r => (acc, r.1, log)
  | setData value => (SimpleStack.setData acc p log (c :: base) value).map fun r => (acc, r)
  | eraseData => (SimpleStack.eraseData acc p log (c :: base)).map fun r => (acc, r)
  | undoData dbOpLog => (c.undoData dbOpLog).map fun c' => (acc, c' :: base, log)
  | clear => some (acc, SimpleStack.clear (c :: base), log)
  | flush =>
    let r := SimpleStack.flush acc p (c :: base)
    some (r.1, r.2, log)

/-- `GetData` and `HasData`. -/
def SingleOp.reads : SingleOp V → Bool
  | getData | hasData => true
  | _ => false

/-- Two simple caches over one base. -/
structure SharedSingles (V : Type) where
  acc : CDBAccess
  base : SimpleStack V
  cache : Side → InerySimpleKVCache V
  log : Side → Option CDBOpLogMap

namespace SharedSingles

variable (p : PrefixType)

/-- One operation of one of the caches. -/
def step (st : SharedSingles V) (o : Side × SingleOp V) : Option (SharedSingles V) :=
  match o.2.apply st.acc p (st.log o.1) (st.cache o.1) st.base with
  | some (acc, c :: base, log) =>
    some ⟨acc, base, Function.update st.cache o.1 c, Function.update st.log o.1 log⟩
  | _ => none

/-- What a read by the cache `b` finds in the base. -/
def copied (st : SharedSingles V) (o : Side × SingleOp V) : Option V :=
  if o.1 = .b ∧ o.2.reads then SimpleStack.find st.acc p st.base else none

/-- The value that the first read by the cache `b` copies, along a run. -/
def firstCopy (st : SharedSingles V) (os : List (Side × SingleOp V)) : Option V :=
  firstSome (step p) (copied p) st os

/-- The base of `b` after its `Flush`. -/
def viewAfterFlush (st : SharedSingles V) : Option V :=
  let r := SimpleStack.flush st.acc p (st.cache .b :: st.base)
  SimpleStack.view r.1 p (r.2.drop 1)

variable {p} {acc acc' : CDBAccess} {log log' : Option CDBOpLogMap} {c c' : InerySimpleKVCache V}
  {base base' : SimpleStack V}

theorem ptrData_apply {op : SingleOp V} (hop : op.reads = true)
    (h : op.apply acc p log c base = some (acc', c' :: base', log')) :
    c'.ptrData = c.ptrData.or (SimpleStack.find acc p base) := by
  have hget : ∀ r, SimpleStack.getDataPtr acc p (c :: base) = some r → r.1 = c' :: base' →
      c'.ptrData = c.ptrData.or (SimpleStack.find acc p base) := by
    intro r hr hc
    obtain ⟨s', rfl, -⟩ := SimpleStack.getDataPtr_cons acc p hr
    rw [← (List.cons.inj hc).1, SimpleStack.find_cons]
  cases op with
  | getData | hasData =>
    obtain ⟨r, hr, heq⟩ := Option.map_eq_some_iff.mp h
    obtain ⟨r', hr', rfl⟩ := Option.map_eq_some_iff.mp hr
    exact hget r' hr' (congrArg (fun r => r.2.1) heq)
  | _ => exact absurd hop nofun

theorem ptrData_step {st st' : SharedSingles V} {o : Side × SingleOp V}
    (ho : o.1 = .b → o.2.reads = true) (h : step p st o = some st') :
    (st'.cache .b).ptrData = (st.cache .b).ptrData.or (copied p st o) := by
  obtain ⟨side, op⟩ := o
  unfold step at h
  split at h
  · next acc' c' base' log' happly =>
    obtain rfl := Option.some.inj h
    cases side with
    | a => simp [copied]
    | b =>
      have hc := ptrData_apply (ho rfl) happly
      simpa [copied, show op.reads = true from ho rfl] using hc
  · exact absurd h nofun

theorem viewAfterFlush_run [LawfulSerial V] {st st' : SharedSingles V}
    {os : List (Side × SingleOp V)} (hb : (st.cache .b).ptrData = none)
    (hos : ∀ o ∈ os, o.1 = .b → o.2.reads = true) (h : run (step p) st os = some st') :
    viewAfterFlush p st' = live ((firstCopy p st os).or (SimpleStack.find st'.acc p st'.base)) := by
  have hrun := run_firstSome (step p) (fun st => (st.cache .b).ptrData) (copied p)
    (fun _ _ _ ho => ptrData_step ho) hos h
  obtain ⟨s', hs', hview⟩ := SimpleStack.view_flush_base st'.acc p (st'.cache .b) st'.base
  rw [viewAfterFlush, hs', List.drop_one, List.tail_cons, hview, SimpleStack.view,
    SimpleStack.find_cons, hrun, hb, Option.none_or, firstCopy]

end SharedSingles

end Simple

/-! ## What a flush writes back -/

/-- **A flush writes the first copy back.** In any run of two caches over one base, from a state in
which `b` has no entry for `k` to one just before its flush, with no write of `k` by `b` in between:
the flush leaves the base's view of `k` alone when no read copied an entry, and otherwise sets it
to the entry that the first read copied; so what the base holds by then is kept exactly when it is
what `b` had read. -/
theorem flush_writes_back_first_copy {K V : Type} [LinearOrder K] [Serial K] [DbUtil K] [Serial V]
    [DbUtil V] [LawfulSerial V] (p : PrefixType)
    (hinj : Function.Injective (genDbKey (K := K) p)) :
    (∀ (st st' : SharedCaches K V) (os : List (Side × CacheOp K V)) (k : K),
      (st.cache .b).mapData.find? k = none → (∀ o ∈ os, o.1 = .b → o.2.OnlyReads k) →
      run (SharedCaches.step p) st os = some st' →
      (SharedCaches.firstCopy p k st os = none →
        st'.viewAfterFlush p k = CacheStack.view st'.acc p st'.base k) ∧
      (∀ v, SharedCaches.firstCopy p k st os = some v →
        st'.viewAfterFlush p k = live (some v) ∧
        (st'.viewAfterFlush p k = CacheStack.view st'.acc p st'.base k ↔
          CacheStack.view st'.acc p st'.base k = live (some v)))) ∧
    ∀ (st st' : SharedSingles V) (os : List (Side × SingleOp V)),
      (st.cache .b).ptrData = none → (∀ o ∈ os, o.1 = .b → o.2.reads = true) →
      run (SharedSingles.step p) st os = some st' →
      (SharedSingles.firstCopy p st os = none →
        st'.viewAfterFlush p = SimpleStack.view st'.acc p st'.base) ∧
      (∀ v, SharedSingles.firstCopy p st os = some v →
        st'.viewAfterFlush p = live (some v) ∧
        (st'.viewAfterFlush p = SimpleStack.view st'.acc p st'.base ↔
          SimpleStack.view st'.acc p st'.base = live (some v))) := by
  constructor
  · intro st st' os k hb hos h
    have hv := SharedCaches.viewAfterFlush_run hinj hb hos h
    refine ⟨fun hnone => by rw [hv, hnone]; rfl, fun v hsome => ?_⟩
    rw [hsome, Option.some_or] at hv
    exact ⟨hv, by rw [hv]; exact eq_comm⟩
  · intro st st' os hb hos h
    have hv := SharedSingles.viewAfterFlush_run hb hos h
    refine ⟨fun hnone => by rw [hv, hnone]; rfl, fun v hsome => ?_⟩
    rw [hsome, Option.some_or] at hv
    exact ⟨hv, by rw [hv]; exact eq_comm⟩

/-- `b` reads 5, `a` sets 9 and flushes, and the flush of `b` puts the 5 back. -/
theorem flush_loses_update :
    let c : IneryCompositeKVCache Byte Byte := ⟨∅, false, 0⟩
    let base : IneryCompositeKVCache Byte Byte := ⟨(∅ : SortedMap _ _).insert 1 5, true, 2⟩
    let st : SharedCaches Byte Byte := ⟨⟨.account, ∅⟩, [base], fun _ => c, fun _ => none⟩
    let os : List (Side × CacheOp Byte Byte) := [(.b, .getData 1), (.a, .setData 1 9), (.a, .flush)]
    (∀ o ∈ os, o.1 = .b → o.2.OnlyReads 1) ∧
      (run (SharedCaches.step .keyidAccount) st os).map (fun st' =>
        (CacheStack.view st'.acc .keyidAccount st'.base 1, st'.viewAfterFlush .keyidAccount 1)) =
          some (some 9, some 5) := by
  intro c base st os
  exact ⟨by simp [os, CacheOp.OnlyReads], by decide⟩

/-- The same run seen by the theorem: what `b` read is what its flush leaves. -/
theorem flush_writes_back_first_copy_byte :
    let c : IneryCompositeKVCache Byte Byte := ⟨∅, false, 0⟩
    let base : IneryCompositeKVCache Byte Byte := ⟨(∅ : SortedMap _ _).insert 1 5, true, 2⟩
    let st : SharedCaches Byte Byte := ⟨⟨.account, ∅⟩, [base], fun _ => c, fun _ => none⟩
    let os : List (Side × CacheOp Byte Byte) := [(.b, .getData 1), (.a, .setData 1 9), (.a, .flush)]
    let single : SharedSingles Byte := ⟨⟨.account, ∅⟩, [⟨some 3⟩], fun _ => ⟨none⟩, fun _ => none⟩
    let os' : List (Side × SingleOp Byte) := [(.b, .hasData), (.a, .setData 4)]
    (∃ st', run (SharedCaches.step .keyidAccount) st os = some st' ∧
      st'.viewAfterFlush .keyidAccount 1 = live (some 5)) ∧
    ∃ st', run (SharedSingles.step .keyidAccount) single os' = some st' ∧
      st'.viewAfterFlush .keyidAccount = live (some 3) := by
  intro c base st os single os'
  obtain ⟨hcomp, hsingle⟩ := flush_writes_back_first_copy (K := Byte) (V := Byte) .keyidAccount
    (genDbKey_injective _)
  refine ⟨⟨_, rfl, ?_⟩, ⟨_, rfl, ?_⟩⟩
  · exact ((hcomp st _ os 1 rfl (by simp [os, CacheOp.OnlyReads]) rfl).2 5 (by decide)).1
  · exact ((hsingle single _ os' rfl (by simp [os', SingleOp.reads]) rfl).2 3 (by decide)).1

end Inery
