import IneryPersistence.Cache.Sharing

/-!
# Stacks of simple caches

* `SingleLevels`, `step`: the operations on the levels of a stack over one database;
* `singleStored_step`: the database never gets an empty value;
* `RefinesValue`: what reads, writes and flushes do at one level of a stack;
* **`simple_stack_refines_value`**: in every state that a run reaches, at every level.
-/

namespace Inery

open KV

namespace SimpleStack

variable {V : Type} [Serial V]

theorem find_append_congr (p : PrefixType) {acc acc' : CDBAccess} (us : SimpleStack V)
    {s s' : SimpleStack V} (h : find acc p s = find acc' p s') :
    find acc p (us ++ s) = find acc' p (us ++ s') := by
  induction us with
  | nil => exact h
  | cons c us ih => rw [List.cons_append, List.cons_append, find_cons, find_cons, ih]

omit [Serial V] in
theorem exists_drop_eq_cons {i : ℕ} {s : SimpleStack V} (hi : i < s.length) : ∃ c bs, s.drop i = c :: bs :=
  List.exists_cons_of_length_pos (by rw [List.length_drop]; exact Nat.sub_pos_of_lt hi)

variable [DbUtil V]

theorem view_drop_append (acc : CDBAccess) (p : PrefixType) (us : SimpleStack V) {s s' : SimpleStack V}
    (h : ∀ j, find acc p (s.drop j) = find acc p (s'.drop j)) (j : ℕ) :
    view acc p ((us ++ s).drop j) = view acc p ((us ++ s').drop j) := by
  rw [List.drop_append, List.drop_append]
  refine congrArg live ?_
  rcases Nat.lt_or_ge j us.length with hj | hj
  · rw [Nat.sub_eq_zero_of_le hj.le]
    exact find_append_congr p _ (h 0)
  · rw [List.drop_of_length_le hj]
    exact h _

theorem length_getDataPtr (acc : CDBAccess) (p : PrefixType) {s : SimpleStack V}
    {r : SimpleStack V × Option V} (h : getDataPtr acc p s = some r) : r.1.length = s.length := by
  induction s generalizing r with
  | nil =>
    rw [getDataPtr] at h
    split at h
    · split_ifs at h
      obtain rfl := Option.some.inj h
      rfl
    · obtain rfl := Option.some.inj h
      rfl
  | cons c s ih =>
    rw [getDataPtr] at h
    split at h
    · obtain rfl := Option.some.inj h
      rfl
    · obtain ⟨⟨s', o⟩, hs', rfl⟩ := Option.map_eq_some_iff.mp h
      cases o with
      | none => exact congrArg Nat.succ (ih hs')
      | some v => exact congrArg Nat.succ (ih hs')

theorem length_eraseData (acc : CDBAccess) (p : PrefixType) {log log' : Option CDBOpLogMap}
    {s s₁ : SimpleStack V} (h : eraseData acc p log s = some (s₁, log')) : s₁.length = s.length := by
  obtain ⟨r, hr, h⟩ := Option.map_eq_some_iff.mp h
  rw [← length_getDataPtr acc p hr]
  split at h
  · split_ifs at h
    · rw [← (Prod.mk.inj h).1]
    · rw [← (Prod.mk.inj h).1]
      rfl
  · rw [← (Prod.mk.inj h).1]

/-- **A value that is read and then set**, as an update of the value does. -/
theorem getData_setData_cons {acc : CDBAccess} {p : PrefixType} (hacc : SingleStored V acc p)
    (log : Option CDBOpLogMap) (c : InerySimpleKVCache V) (bs : SimpleStack V) :
    ∃ s, getData acc p (c :: bs) = some (s, view acc p (c :: bs)) ∧
      ∀ v, ∃ t log', setData acc p log s v = some (⟨some v⟩ :: t, log') ∧ t.length = bs.length ∧
        ∀ j, view acc p (t.drop j) = view acc p (bs.drop j) := by
  obtain ⟨r, hr⟩ := getDataPtr_isSome acc p hacc (c :: bs)
  have hlen := length_getDataPtr acc p hr
  obtain ⟨s, rfl, hdrop⟩ := getDataPtr_cons acc p hr
  refine ⟨_, by rw [getData, hr, Option.map_some]; rfl, fun v => ?_⟩
  obtain ⟨⟨t, log'⟩, ht⟩ := setData_isSome acc p hacc log (⟨find acc p (c :: bs)⟩ :: s) v
  obtain ⟨r', hr', hset⟩ := Option.map_eq_some_iff.mp ht
  have hlen' := length_getDataPtr acc p hr'
  obtain ⟨-, t, rfl, hdrop'⟩ := setData_cons acc p ht
  obtain ⟨t', rfl, -⟩ := getDataPtr_cons acc p hr'
  obtain ⟨hcons, -⟩ := Prod.mk.inj hset
  obtain ⟨-, rfl⟩ := List.cons.inj hcons
  refine ⟨_, log', ht, ?_, fun j => congrArg live ((hdrop' j).trans (hdrop j))⟩
  exact Nat.succ.inj (hlen'.trans hlen)

theorem length_flush (acc : CDBAccess) (p : PrefixType) (c : InerySimpleKVCache V) (bs : SimpleStack V) :
    (flush acc p (c :: bs)).2.length = bs.length + 1 := by
  obtain ⟨_ | v⟩ := c
  · cases bs <;> rfl
  · cases bs <;> rfl

/-- The operations at the cache `c`, with the caches `us` above and `bs` below, act on one value: reads
answer its view and move no level's, writes move its view and none below, and a flush hands its view to
the base or to the database. -/
structure RefinesValue (acc : CDBAccess) (p : PrefixType) (log : Option CDBOpLogMap) (us : SimpleStack V)
    (c : InerySimpleKVCache V) (bs : SimpleStack V) : Prop where
  getData : ∃ s, getData acc p (c :: bs) = some (s, view acc p (c :: bs)) ∧
    ∀ j, view acc p ((us ++ s).drop j) = view acc p ((us ++ c :: bs).drop j)
  hasData : ∃ s, hasData acc p (c :: bs) = some (s, (view acc p (c :: bs)).isSome) ∧
    ∀ j, view acc p ((us ++ s).drop j) = view acc p ((us ++ c :: bs).drop j)
  setData : ∀ v, ∃ s log', setData acc p log (c :: bs) v = some (s, log') ∧
    view acc p s = live (some v) ∧ ∀ j, view acc p (s.drop (j + 1)) = view acc p (bs.drop j)
  eraseData : ∃ s log', eraseData acc p log (c :: bs) = some (s, log') ∧
    view acc p s = none ∧ ∀ j, view acc p (s.drop (j + 1)) = view acc p (bs.drop j)
  flush : ∃ s, (flush acc p (c :: bs)).2 = ⟨none⟩ :: s ∧ s.length = bs.length ∧
    view (SimpleStack.flush acc p (c :: bs)).1 p (⟨none⟩ :: s) = view acc p (c :: bs) ∧
      view (SimpleStack.flush acc p (c :: bs)).1 p s = view acc p (c :: bs)

variable [LawfulSerial V] [LawfulDbUtil V]

/-- **A level refines one value** while the database holds no empty one. -/
theorem refinesValue {acc : CDBAccess} {p : PrefixType} (hacc : SingleStored V acc p)
    (log : Option CDBOpLogMap) (us : SimpleStack V) (c : InerySimpleKVCache V) (bs : SimpleStack V) :
    RefinesValue acc p log us c bs where
  getData := by
    obtain ⟨r, hr⟩ := getDataPtr_isSome acc p hacc (c :: bs)
    obtain ⟨hfind, hdrop⟩ := getDataPtr_spec acc p hr
    refine ⟨r.1, ?_, view_drop_append acc p us hdrop⟩
    rw [SimpleStack.getData, hr, Option.map_some, hfind]
    rfl
  hasData := by
    obtain ⟨r, hr⟩ := getDataPtr_isSome acc p hacc (c :: bs)
    obtain ⟨hfind, hdrop⟩ := getDataPtr_spec acc p hr
    refine ⟨r.1, ?_, view_drop_append acc p us hdrop⟩
    rw [SimpleStack.hasData, hr, Option.map_some, hfind]
    rfl
  setData v := by
    obtain ⟨⟨s, log'⟩, hs⟩ := setData_isSome acc p hacc log (c :: bs) v
    obtain ⟨-, s', rfl, hdrop⟩ := setData_cons acc p hs
    exact ⟨_, log', hs, rfl, fun j => congrArg live (hdrop j)⟩
  eraseData := by
    obtain ⟨⟨s, log'⟩, hs⟩ := eraseData_isSome acc p hacc log (c :: bs)
    obtain ⟨c', s', rfl, hdrop, hcase⟩ := eraseData_cons acc p hs
    refine ⟨_, log', hs, ?_, fun j => congrArg live (hdrop j)⟩
    rcases hcase with ⟨hview, -, rfl⟩ | ⟨old, -, -, rfl⟩
    · -- the value that was read is absent, and so is what the levels below hold
      rw [view, find_cons] at hview ⊢
      rw [show find acc p s' = find acc p bs from hdrop 0]
      cases ho : find acc p (c :: bs) with
      | some v =>
        rw [← find_cons, ho] at hview
        exact hview
      | none =>
        rw [find_cons, Option.or_eq_none_iff] at ho
        rw [ho.2]
        rfl
    · exact live_of_isEmpty (LawfulDbUtil.isEmpty_setEmpty old)
  flush := by
    obtain ⟨s, hs, hview⟩ := view_flush_base acc p c bs
    refine ⟨s, hs, ?_, hview, hview⟩
    have hlen := length_flush acc p c bs
    rw [hs] at hlen
    exact Nat.succ.inj hlen

omit [LawfulDbUtil V] in
/-- After a flush every level has the view of some level before it, and the top keeps its own. -/
theorem view_flush_drop (acc : CDBAccess) (p : PrefixType) (c : InerySimpleKVCache V) (bs : SimpleStack V) (j : ℕ) :
    ∃ k, (j = 0 → k = 0) ∧
      view (flush acc p (c :: bs)).1 p ((flush acc p (c :: bs)).2.drop j) = view acc p ((c :: bs).drop k) := by
  obtain ⟨_ | v⟩ := c
  · exact ⟨j, id, by cases bs <;> rfl⟩
  cases bs with
  | nil =>
    refine ⟨0, fun _ => rfl, ?_⟩
    have hlive : live ((acc.writeSingle p v).getSingle p) = live (some v) := live_getSingle_writeSingle acc p v
    cases j with
    | zero => exact hlive
    | succ j => exact (congrArg (view _ p) (List.drop_nil)).trans hlive
  | cons b bs =>
    rcases j with _ | _ | j
    · exact ⟨0, fun _ => rfl, rfl⟩
    · exact ⟨0, nofun, rfl⟩
    · exact ⟨j + 2, nofun, rfl⟩

end SimpleStack

/-! ## Runs -/

/-- The levels of a stack over a database, and the log of each level. -/
structure SingleLevels (V : Type) where
  acc : CDBAccess
  caches : SimpleStack V
  log : ℕ → Option CDBOpLogMap

namespace SingleLevels

variable {V : Type} [Serial V] [DbUtil V] (p : PrefixType)

/-- One operation of the cache at a level. -/
def step (st : SingleLevels V) (o : ℕ × SingleOp V) : Option (SingleLevels V) :=
  match st.caches.drop o.1 with
  | c :: base => (o.2.apply st.acc p (st.log o.1) c base).map fun r =>
    ⟨r.1, st.caches.take o.1 ++ r.2.1, Function.update st.log o.1 r.2.2⟩
  | [] => none

/-- The level exists, and a log that is undone can be read. -/
def Ready (st : SingleLevels V) (o : ℕ × SingleOp V) : Prop :=
  o.1 < st.caches.length ∧ ∀ dbOpLog, o.2 = .undoData dbOpLog → (unser (α := V) dbOpLog.value).isSome

variable {p}

/-- **An operation that does not throw keeps the database free of empty values**, and does not fail. -/
theorem apply_isSome [LawfulSerial V] {acc : CDBAccess} (hacc : SimpleStack.SingleStored V acc p)
    (log : Option CDBOpLogMap) (c : InerySimpleKVCache V) (base : SimpleStack V) {op : SingleOp V}
    (hop : ∀ dbOpLog, op = .undoData dbOpLog → (unser (α := V) dbOpLog.value).isSome) :
    ∃ acc' s log', op.apply acc p log c base = some (acc', s, log') ∧
      SimpleStack.SingleStored V acc' p ∧ s.length = base.length + 1 := by
  obtain ⟨g, hg⟩ := SimpleStack.getDataPtr_isSome acc p hacc (c :: base)
  have hlen : g.1.length = base.length + 1 := SimpleStack.length_getDataPtr acc p hg
  obtain ⟨s', rfl, -⟩ := SimpleStack.getDataPtr_cons acc p hg
  cases op with
  | getData => exact ⟨acc, _, log, by rw [SingleOp.apply, SimpleStack.getData, hg]; rfl, hacc, hlen⟩
  | hasData => exact ⟨acc, _, log, by rw [SingleOp.apply, SimpleStack.hasData, hg]; rfl, hacc, hlen⟩
  | setData v =>
    exact ⟨acc, ⟨some v⟩ :: s', _, by rw [SingleOp.apply, SimpleStack.setData, hg]; rfl, hacc, hlen⟩
  | eraseData =>
    obtain ⟨⟨s₁, log'⟩, hs₁⟩ := SimpleStack.eraseData_isSome acc p hacc log (c :: base)
    refine ⟨acc, s₁, log', by rw [SingleOp.apply, hs₁]; rfl, hacc, ?_⟩
    rw [SimpleStack.length_eraseData acc p hs₁, List.length_cons]
  | undoData dbOpLog =>
    obtain ⟨v, hv⟩ := Option.isSome_iff_exists.mp (hop dbOpLog rfl)
    exact ⟨acc, _, log, by rw [SingleOp.apply, InerySimpleKVCache.undoData, hv]; rfl, hacc, rfl⟩
  | clear => exact ⟨acc, _, log, rfl, hacc, rfl⟩
  | flush =>
    exact ⟨_, _, log, rfl, SimpleStack.singleStored_flush acc p hacc (c :: base),
      SimpleStack.length_flush acc p c base⟩

theorem singleStored_step [LawfulSerial V] {n : ℕ} {st : SingleLevels V} {o : ℕ × SingleOp V}
    (hst : SimpleStack.SingleStored V st.acc p ∧ st.caches.length = n) (ho : Ready st o) :
    ∃ st', step p st o = some st' ∧ SimpleStack.SingleStored V st'.acc p ∧ st'.caches.length = n := by
  obtain ⟨c, base, hdrop⟩ : ∃ c base, st.caches.drop o.1 = c :: base :=
    List.exists_cons_of_length_pos (by rw [List.length_drop]; exact Nat.sub_pos_of_lt ho.1)
  obtain ⟨acc', s, log', happly, hacc', hlen⟩ := apply_isSome hst.1 (st.log o.1) c base ho.2
  refine ⟨⟨acc', st.caches.take o.1 ++ s, Function.update st.log o.1 log'⟩,
    by simp only [step, hdrop, happly, Option.map_some], hacc', ?_⟩
  have hbase := congrArg List.length hdrop
  rw [List.length_drop, List.length_cons] at hbase
  rw [List.length_append, List.length_take, hlen, ← hbase, ← hst.2]
  have := ho.1
  omega

theorem step_undoData (acc : CDBAccess) (us : SimpleStack V) (c : InerySimpleKVCache V)
    (bs : SimpleStack V) (log : ℕ → Option CDBOpLogMap) (dbOpLog : CDbOpLog) :
    step p ⟨acc, us ++ c :: bs, log⟩ (us.length, .undoData dbOpLog) =
      (c.undoData dbOpLog).map fun c' => ⟨acc, us ++ c' :: bs, log⟩ := by
  simp only [step, List.drop_left, List.take_left, SingleOp.apply, Option.map_map]
  exact congrArg (fun f => Option.map f (c.undoData dbOpLog)) (funext fun _ => by simp)

theorem run_undoDataList (acc : CDBAccess) (us : SimpleStack V) (c : InerySimpleKVCache V)
    (bs : SimpleStack V) (log : ℕ → Option CDBOpLogMap) (dbOpLogs : List CDbOpLog) :
    run (step p) ⟨acc, us ++ c :: bs, log⟩
        (dbOpLogs.reverse.map fun dbOpLog => (us.length, .undoData dbOpLog)) =
      (c.undoDataList dbOpLogs).map fun c' => ⟨acc, us ++ c' :: bs, log⟩ := by
  unfold InerySimpleKVCache.undoDataList
  induction dbOpLogs.reverse generalizing c with
  | nil => rfl
  | cons dbOpLog logs ih =>
    rw [List.map_cons, run_cons, step_undoData, List.foldlM_cons]
    cases c.undoData dbOpLog with
    | none => rfl
    | some c' => exact ih c'

/-- **A stack of simple caches refines one value.** From empty caches over a database without an empty
value, a run of operations on any levels never fails, and in the state it reaches every level refines the
value of its view. -/
theorem simple_stack_refines_value [LawfulSerial V] [LawfulDbUtil V] {acc : CDBAccess}
    (hacc : SimpleStack.SingleStored V acc p) (n : ℕ) (log : ℕ → Option CDBOpLogMap)
    {ops : List (ℕ × SingleOp V)}
    (hops : AllSteps (step p) Ready ⟨acc, List.replicate n ⟨none⟩, log⟩ ops) :
    ∃ st, run (step p) ⟨acc, List.replicate n ⟨none⟩, log⟩ ops = some st ∧
      SimpleStack.SingleStored V st.acc p ∧ ∀ us c bs, st.caches = us ++ c :: bs →
        SimpleStack.RefinesValue st.acc p (st.log us.length) us c bs := by
  obtain ⟨st, hrun, hst⟩ := run_exists (step p) (fun _ _ => singleStored_step)
    ⟨hacc, List.length_replicate⟩ hops
  exact ⟨st, hrun, hst.1, fun us c bs _ => SimpleStack.refinesValue hst.1 _ us c bs⟩

/-- The value is stored, erased above, restored from its log and flushed into the database. -/
theorem simple_stack_refines_value_run :
    let ops : List (ℕ × SingleOp Byte) := [(1, .setData 7), (1, .flush), (0, .eraseData), (0, .flush),
      (1, .undoData ⟨[], [7]⟩)]
    AllSteps (step (V := Byte) .finalityBlock) Ready ⟨⟨.block, ∅⟩, List.replicate 2 ⟨none⟩, fun _ => none⟩
        ops ∧
      ∃ st, run (step .finalityBlock) ⟨⟨.block, ∅⟩, List.replicate 2 ⟨none⟩, fun _ => none⟩ ops = some st ∧
        SimpleStack.SingleStored Byte st.acc .finalityBlock ∧ ∀ us c bs, st.caches = us ++ c :: bs →
          SimpleStack.RefinesValue st.acc .finalityBlock (st.log us.length) us c bs := by
  intro ops
  have hops : AllSteps (step (V := Byte) .finalityBlock) Ready
      ⟨⟨.block, ∅⟩, List.replicate 2 ⟨none⟩, fun _ => none⟩ ops := by
    refine ⟨⟨by decide, nofun⟩, fun st₁ h₁ => ?_⟩
    obtain rfl := Option.some.inj h₁
    refine ⟨⟨by decide, nofun⟩, fun st₂ h₂ => ?_⟩
    obtain rfl := Option.some.inj h₂
    refine ⟨⟨by decide, nofun⟩, fun st₃ h₃ => ?_⟩
    obtain rfl := Option.some.inj h₃
    refine ⟨⟨by decide, nofun⟩, fun st₄ h₄ => ?_⟩
    obtain rfl := Option.some.inj h₄
    refine ⟨⟨by decide, fun dbOpLog h => ?_⟩, fun _ _ => trivial⟩
    obtain rfl := SingleOp.undoData.inj h
    rfl
  exact ⟨hops, simple_stack_refines_value (fun _ h => by cases h) 2 _ hops⟩

end SingleLevels

end Inery
