import IneryPersistence.Cache.Children
import IneryPersistence.Cache.Levels
import IneryPersistence.Undo.Inverse

/-!
# Wrappers on wrappers

A `CCacheWrapper` can be built on another one, worked on, flushed into it and destroyed, to any depth. The members
are those of its domain caches; `txCache` and `ppCache`, which are no caches of a database, are not among them.

* `Views`, `levelViews`: the flat maps and values of all levels, down to the databases;
* `Nested`, `NestedOp`, `Nested.step`: the code, and `Views.step`: the same on flat maps;
* `SameBelow`, `step_sameBelow`: an operation moves no level under its own;
* `FlushFrame`, `flushFrame_foldl`: a flush moves no level but the next one;
* **`nested_refines_views`**: nested wrappers are nested transactions.
-/

namespace Inery

open KV

/-- The flat maps and values of the members at one level. -/
structure Views (Key Val : PrefixType → Type) where
  composite : ∀ p, Key p → Option (Val p)
  single : ∀ p, Option (Val p)

/-- What can be done with the topmost wrapper: an operation on it, building a new one on it, `Flush`, and destroying
it. -/
inductive NestedOp (Key Val : PrefixType → Type)
  | op (o : WrapperOp Key Val)
  | construct
  | flush
  | destroy

/-- The topmost wrapper, and the logs of those under it. -/
structure Nested (Key Val : PrefixType → Type) [∀ p, LinearOrder (Key p)] where
  top : CCacheWrapper Key Val
  logs : List ((PrefixType → Bool) × CDBOpLogMap)

/-! ## The flat maps -/

namespace Views

variable {Key Val : PrefixType → Type} [∀ p, DbUtil (Key p)] {v v' v'' : Views Key Val}

/-- Both answer alike, for the members and for the keys that can be read. -/
def Same (v v' : Views Key Val) : Prop :=
  ∀ p ∈ members, (p.isSimple = false → ∀ key, isEmpty key = false → v.composite p key = v'.composite p key) ∧
    (p.isSimple = true → v.single p = v'.single p)

theorem Same.refl (v : Views Key Val) : v.Same v := fun _ _ => ⟨fun _ _ _ => rfl, fun _ => rfl⟩

theorem Same.trans (h : v.Same v') (h' : v'.Same v'') : v.Same v'' := fun p hp =>
  ⟨fun hs key hkey => ((h p hp).1 hs key hkey).trans ((h' p hp).1 hs key hkey),
    fun hs => ((h p hp).2 hs).trans ((h' p hp).2 hs)⟩

variable [∀ p, LinearOrder (Key p)] [∀ p, DbUtil (Val p)]

/-- The maps after an operation. -/
def write (v : Views Key Val) (o : WrapperOp Key Val) : Views Key Val where
  composite p key := ((o.written p key).map live).getD (v.composite p key)
  single p := ((o.writtenSingle p).map live).getD (v.single p)

theorem Same.write (h : v.Same v') (o : WrapperOp Key Val) : (v.write o).Same (v'.write o) := fun p hp =>
  ⟨fun hs key hkey => congrArg (Option.getD _) ((h p hp).1 hs key hkey),
    fun hs => congrArg (Option.getD _) ((h p hp).2 hs)⟩

/-- Nested transactions on flat maps: the first is worked on, the second is what it began with, and the last is in
the databases. -/
def step : List (Views Key Val) → NestedOp Key Val → Option (List (Views Key Val))
  | v :: vs, .op o => some (v.write o :: vs)
  | v :: vs, .construct => some (v :: v :: vs)
  | v :: _ :: vs, .flush => some (v :: v :: vs)
  | _ :: v :: v' :: vs, .destroy => some (v :: v' :: vs)
  | _, _ => none

end Views

namespace CCacheWrapper

section Model

variable {Key Val : PrefixType → Type} [∀ p, LinearOrder (Key p)]

/-- The wrapper under this one, which has the log it had. -/
def base (w : CCacheWrapper Key Val) (log : (PrefixType → Bool) × CDBOpLogMap) : CCacheWrapper Key Val where
  db := w.db
  composite p := (w.compositeBase p).head?.getD ⟨∅, false, 0⟩
  compositeBase p := (w.compositeBase p).tail
  simple p := (w.simpleBase p).head?.getD ⟨none⟩
  simpleBase p := (w.simpleBase p).tail
  pDbOpLogMap := log.1
  dbOpLogMap := log.2

variable [∀ p, Serial (Key p)] [∀ p, Serial (Val p)] [∀ p, DbUtil (Val p)]

/-- The flat maps of a level: `0` is the wrapper itself, and the level behind the last cache the databases. -/
def levelViews (w : CCacheWrapper Key Val) (j : ℕ) : Views Key Val where
  composite p := CacheStack.view (w.dbAccess p) p ((w.compositeStack p).drop j)
  single p := SimpleStack.view (w.dbAccess p) p ((w.simpleStack p).drop j)

theorem levelViews_one (w : CCacheWrapper Key Val) : w.levelViews 1 =
    ⟨fun p => CacheStack.view (w.dbAccess p) p (w.compositeBase p),
      fun p => SimpleStack.view (w.dbAccess p) p (w.simpleBase p)⟩ := rfl

theorem levelViews_zero (w : CCacheWrapper Key Val) : w.levelViews 0 = ⟨w.view, w.singleView⟩ := rfl

/-- Every member has `n` caches, its own and those under it. -/
def Depth (w : CCacheWrapper Key Val) (n : ℕ) : Prop :=
  ∀ p ∈ members, (w.compositeStack p).length = n ∧ (w.simpleStack p).length = n

end Model

end CCacheWrapper

section Step

variable {Key Val : PrefixType → Type} [∀ p, LinearOrder (Key p)] [∀ p, Serial (Key p)]
  [∀ p, DbUtil (Key p)] [∀ p, Serial (Val p)] [∀ p, DbUtil (Val p)]

/-- One operation on the topmost wrapper; `none` when an assertion stops the program, or when there is no wrapper
under the one to be destroyed. -/
def Nested.step (t : Nested Key Val) : NestedOp Key Val → Option (Nested Key Val)
  | .op o => (t.top.step o).map fun w => ⟨w, t.logs⟩
  | .construct => some ⟨t.top.setBaseViewPtr, (t.top.pDbOpLogMap, t.top.dbOpLogMap) :: t.logs⟩
  | .flush => some ⟨t.top.flush, t.logs⟩
  | .destroy =>
    match t.logs with
    | log :: logs => some ⟨t.top.base log, logs⟩
    | [] => none

/-- An operation is on a member of its kind. -/
def NestedOp.Valid : NestedOp Key Val → Prop
  | .op o => o.Valid
  | .construct | .flush | .destroy => True

end Step

/-! ## Flushes of one member -/

section Flush

variable {K V : Type} [LinearOrder K] [Serial K] [Serial V] [DbUtil V] (acc : CDBAccess) (p : PrefixType)

theorem CacheStack.drop_flush (s : CacheStack K V) : (flush acc p s).2.drop 2 = s.drop 2 := by
  rcases s with _ | ⟨c, _ | ⟨b, bs⟩⟩ <;> rfl

theorem CacheStack.flush_fst_of_base {s : CacheStack K V} (h : 2 ≤ s.length) : (flush acc p s).1 = acc := by
  rcases s with _ | ⟨c, _ | ⟨b, bs⟩⟩
  · rfl
  · exact absurd h (by simp)
  · rfl

omit [LinearOrder K] [Serial K] in
theorem SimpleStack.drop_flush (s : SimpleStack V) : (flush acc p s).2.drop 2 = s.drop 2 := by
  rcases s with _ | ⟨⟨_ | v⟩, _ | ⟨b, bs⟩⟩ <;> rfl

omit [LinearOrder K] [Serial K] in
theorem SimpleStack.flush_fst_of_base {s : SimpleStack V} (h : 2 ≤ s.length) : (flush acc p s).1 = acc := by
  rcases s with _ | ⟨⟨_ | v⟩, _ | ⟨b, bs⟩⟩
  · rfl
  · rfl
  · rfl
  · exact absurd h (by simp)
  · rfl

end Flush

/-! ## An operation moves no level under its own -/

theorem SimpleStack.length_setData {V : Type} [Serial V] [DbUtil V] (acc : CDBAccess) (p : PrefixType)
    {log log' : Option CDBOpLogMap} {s s₁ : SimpleStack V} {v : V} (h : setData acc p log s v = some (s₁, log')) :
    s₁.length = s.length := by
  obtain ⟨⟨s', o⟩, hr, h⟩ := Option.map_eq_some_iff.mp h
  rw [← length_getDataPtr acc p hr]
  cases s' with
  | nil => rw [← (Prod.mk.inj h).1]
  | cons c s' =>
    rw [← (Prod.mk.inj h).1]
    rfl

namespace CCacheWrapper

section Below

variable {Key Val : PrefixType → Type} [∀ p, LinearOrder (Key p)] [∀ p, Serial (Key p)]
  [∀ p, DbUtil (Key p)] [∀ p, Serial (Val p)] [∀ p, DbUtil (Val p)] {w w' : CCacheWrapper Key Val} {p : PrefixType}

/-- The caches under those of `w'` are as many as under those of `w`, and show the same. -/
structure SameBelow (w w' : CCacheWrapper Key Val) : Prop where
  composite : ∀ q, (w'.compositeStack q).length = (w.compositeStack q).length ∧
    ∀ j, CacheStack.view (w'.dbAccess q) q ((w'.compositeStack q).drop (j + 1)) =
      CacheStack.view (w.dbAccess q) q ((w.compositeStack q).drop (j + 1))
  simple : ∀ q, (w'.simpleStack q).length = (w.simpleStack q).length ∧
    ∀ j, SimpleStack.view (w'.dbAccess q) q ((w'.simpleStack q).drop (j + 1)) =
      SimpleStack.view (w.dbAccess q) q ((w.simpleStack q).drop (j + 1))

omit [∀ p, Serial (Key p)] [∀ p, DbUtil (Key p)] [∀ p, Serial (Val p)] [∀ p, DbUtil (Val p)] in
theorem compositeStack_setComposite (c : IneryCompositeKVCache (Key p) (Val p)) (s : CacheStack (Key p) (Val p)) :
    (w.setComposite p (c :: s)).compositeStack p = c :: s := by
  simp [setComposite, compositeStack]

omit [∀ p, Serial (Key p)] [∀ p, DbUtil (Key p)] [∀ p, Serial (Val p)] [∀ p, DbUtil (Val p)] in
theorem simpleStack_setSimple (c : InerySimpleKVCache (Val p)) (s : SimpleStack (Val p)) :
    (w.setSimple p (c :: s)).simpleStack p = c :: s := by
  simp [setSimple, simpleStack]

omit [∀ p, DbUtil (Key p)] in
theorem SameBelow.storeLog (h : SameBelow w w') (log : Option CDBOpLogMap) : SameBelow w (w'.storeLog log) := by
  cases log <;> exact ⟨h.composite, h.simple⟩

omit [∀ p, DbUtil (Key p)] in
theorem sameBelow_setComposite {s : CacheStack (Key p) (Val p)} (hlen : s.length = (w.compositeStack p).length)
    (hview : ∀ j, CacheStack.view (w.dbAccess p) p (s.drop (j + 1)) =
      CacheStack.view (w.dbAccess p) p ((w.compositeStack p).drop (j + 1))) : SameBelow w (w.setComposite p s) := by
  have hdb : ∀ q, (w.setComposite p s).dbAccess q = w.dbAccess q := fun q => by
    rw [dbAccess, dbAccess, setComposite_db]
  obtain ⟨c, s, rfl⟩ := List.exists_cons_of_length_pos (l := s) (by rw [hlen]; exact Nat.succ_pos _)
  refine ⟨fun q => ?_, fun q => ?_⟩
  · rw [hdb]
    by_cases hq : q = p
    · subst hq
      rw [compositeStack_setComposite]
      exact ⟨hlen, hview⟩
    · rw [(agreeAt_setComposite hq (c :: s)).compositeStack]
      exact ⟨rfl, fun _ => rfl⟩
  · rw [hdb]
    exact ⟨rfl, fun _ => rfl⟩

omit [∀ p, DbUtil (Key p)] in
theorem sameBelow_setSimple {s : SimpleStack (Val p)} (hlen : s.length = (w.simpleStack p).length)
    (hview : ∀ j, SimpleStack.view (w.dbAccess p) p (s.drop (j + 1)) =
      SimpleStack.view (w.dbAccess p) p ((w.simpleStack p).drop (j + 1))) : SameBelow w (w.setSimple p s) := by
  have hdb : ∀ q, (w.setSimple p s).dbAccess q = w.dbAccess q := fun q => by
    rw [dbAccess, dbAccess, setSimple_db]
  obtain ⟨c, s, rfl⟩ := List.exists_cons_of_length_pos (l := s) (by rw [hlen]; exact Nat.succ_pos _)
  refine ⟨fun q => ?_, fun q => ?_⟩
  · rw [hdb]
    exact ⟨rfl, fun _ => rfl⟩
  · rw [hdb]
    by_cases hq : q = p
    · subst hq
      rw [simpleStack_setSimple]
      exact ⟨hlen, hview⟩
    · rw [(agreeAt_setSimple hq (c :: s)).simpleStack]
      exact ⟨rfl, fun _ => rfl⟩

omit [∀ p, DbUtil (Key p)] in
theorem sameBelow_getDataIt (key : Key p) :
    SameBelow w (w.setComposite p (CacheStack.getDataIt (w.dbAccess p) p key (w.compositeStack p)).1) :=
  sameBelow_setComposite (CacheStack.length_getDataIt _ p key _) fun j => CacheStack.view_getDataIt _ p key _ (j + 1)

theorem sameBelow_getData (key : Key p) :
    SameBelow w (w.setComposite p (CacheStack.getData (w.dbAccess p) p (w.compositeStack p) key).1) := by
  cases hkey : isEmpty key with
  | true =>
    rw [CacheStack.getData, if_pos hkey]
    exact sameBelow_setComposite rfl fun _ => rfl
  | false =>
    rw [CacheStack.getData, if_neg (by rw [hkey]; exact Bool.false_ne_true)]
    exact sameBelow_getDataIt key

omit [∀ p, DbUtil (Key p)] in
theorem sameBelow_getDataPtr {r : SimpleStack (Val p) × Option (Val p)}
    (hr : SimpleStack.getDataPtr (w.dbAccess p) p (w.simpleStack p) = some r) : SameBelow w (w.setSimple p r.1) :=
  sameBelow_setSimple (SimpleStack.length_getDataPtr _ p hr)
    fun j => congrArg live ((SimpleStack.getDataPtr_spec _ p hr).2 (j + 1))

/-- **An operation moves no level under its own.** -/
theorem step_sameBelow {op : WrapperOp Key Val} (h : w.step op = some w') : SameBelow w w' := by
  cases op with
  | getData p key =>
    obtain rfl := Option.some.inj h
    exact sameBelow_getData key
  | hasData p key =>
    obtain rfl := Option.some.inj h
    rw [CacheStack.hasData_fst]
    exact sameBelow_getData key
  | setData p key value =>
    obtain rfl := Option.some.inj h
    refine (sameBelow_setComposite (CacheStack.length_setData _ p _ _ _ key value) fun j => ?_).storeLog _
    cases hkey : isEmpty key with
    | true =>
      rw [CacheStack.setData, if_pos hkey]
      rfl
    | false => exact CacheStack.view_setData_drop _ p hkey _ (w.composite p) (w.compositeBase p) value j
  | eraseData p key =>
    obtain rfl := Option.some.inj h
    refine (sameBelow_setComposite (CacheStack.length_eraseData _ p _ _ _ key) fun j => ?_).storeLog _
    cases hkey : isEmpty key with
    | true =>
      rw [CacheStack.eraseData, if_pos hkey]
      rfl
    | false => exact CacheStack.view_eraseData_drop _ p hkey _ (w.composite p) (w.compositeBase p) j
  | getSingle p | hasSingle p =>
    obtain ⟨r, hr, rfl⟩ := Option.map_eq_some_iff.mp h
    obtain ⟨r', hptr, rfl⟩ := Option.map_eq_some_iff.mp hr
    exact sameBelow_getDataPtr (r := r') hptr
  | setSingle p value =>
    obtain ⟨⟨s, log⟩, hr, rfl⟩ := Option.map_eq_some_iff.mp h
    obtain ⟨-, s', rfl, hdrop⟩ := SimpleStack.setData_cons (w.dbAccess p) p hr
    exact (sameBelow_setSimple (SimpleStack.length_setData _ p hr) fun j => congrArg live (hdrop j)).storeLog _
  | eraseSingle p =>
    obtain ⟨⟨s, log⟩, hr, rfl⟩ := Option.map_eq_some_iff.mp h
    obtain ⟨c', s', rfl, hdrop, -⟩ := SimpleStack.eraseData_cons (w.dbAccess p) p hr
    exact (sameBelow_setSimple (SimpleStack.length_eraseData _ p hr) fun j => congrArg live (hdrop j)).storeLog _

/-! ## A flush moves no level but the next one -/

/-- The caches from the second one under `w` on are those of `w'`. -/
structure FlushFrame (w w' : CCacheWrapper Key Val) : Prop where
  composite : ∀ q, (w'.compositeStack q).length = (w.compositeStack q).length ∧
    (w'.compositeStack q).drop 2 = (w.compositeStack q).drop 2
  simple : ∀ q, (w'.simpleStack q).length = (w.simpleStack q).length ∧
    (w'.simpleStack q).drop 2 = (w.simpleStack q).drop 2

omit [∀ p, Serial (Key p)] [∀ p, DbUtil (Key p)] [∀ p, Serial (Val p)] [∀ p, DbUtil (Val p)] in
theorem FlushFrame.trans {w'' : CCacheWrapper Key Val} (h : FlushFrame w w') (h' : FlushFrame w' w'') :
    FlushFrame w w'' :=
  ⟨fun q => ⟨(h'.composite q).1.trans (h.composite q).1, (h'.composite q).2.trans (h.composite q).2⟩,
    fun q => ⟨(h'.simple q).1.trans (h.simple q).1, (h'.simple q).2.trans (h.simple q).2⟩⟩

omit [∀ p, DbUtil (Key p)] [∀ p, DbUtil (Val p)] in
theorem flushFrame_setComposite (acc : CDBAccess) {s : CacheStack (Key p) (Val p)}
    (hlen : s.length = (w.compositeStack p).length) (hdrop : s.drop 2 = (w.compositeStack p).drop 2) :
    FlushFrame w ((w.setDb p acc).setComposite p s) := by
  obtain ⟨c, s, rfl⟩ := List.exists_cons_of_length_pos (l := s) (by rw [hlen]; exact Nat.succ_pos _)
  refine ⟨fun q => ?_, fun q => ⟨rfl, rfl⟩⟩
  by_cases hq : q = p
  · subst hq
    rw [compositeStack_setComposite]
    exact ⟨hlen, hdrop⟩
  · rw [(agreeAt_setComposite hq (c :: s)).compositeStack]
    exact ⟨rfl, rfl⟩

omit [∀ p, DbUtil (Key p)] [∀ p, DbUtil (Val p)] in
theorem flushFrame_setSimple (acc : CDBAccess) {s : SimpleStack (Val p)}
    (hlen : s.length = (w.simpleStack p).length) (hdrop : s.drop 2 = (w.simpleStack p).drop 2) :
    FlushFrame w ((w.setDb p acc).setSimple p s) := by
  obtain ⟨c, s, rfl⟩ := List.exists_cons_of_length_pos (l := s) (by rw [hlen]; exact Nat.succ_pos _)
  refine ⟨fun q => ⟨rfl, rfl⟩, fun q => ?_⟩
  by_cases hq : q = p
  · subst hq
    rw [simpleStack_setSimple]
    exact ⟨hlen, hdrop⟩
  · rw [(agreeAt_setSimple hq (c :: s)).simpleStack]
    exact ⟨rfl, rfl⟩

omit [∀ p, DbUtil (Key p)] in
/-- **The flush of a member** goes to its next level. -/
theorem flushFrame_flushMember (w : CCacheWrapper Key Val) (p : PrefixType) : FlushFrame w (w.flushMember p) := by
  unfold flushMember
  split_ifs with hp
  · exact flushFrame_setSimple _ (SimpleStack.length_flush _ p _ _) (SimpleStack.drop_flush _ p _)
  · exact flushFrame_setComposite _ (CacheStack.length_flush _ p _) (CacheStack.drop_flush _ p _)

omit [∀ p, DbUtil (Key p)] in
theorem flushFrame_foldl (w : CCacheWrapper Key Val) (l : List PrefixType) :
    FlushFrame w (l.foldl flushMember w) := by
  induction l generalizing w with
  | nil => exact ⟨fun _ => ⟨rfl, rfl⟩, fun _ => ⟨rfl, rfl⟩⟩
  | cons p l ih => exact (flushFrame_flushMember w p).trans (ih _)

omit [∀ p, DbUtil (Key p)] in
theorem db_flushMember (hc : 2 ≤ (w.compositeStack p).length) (hs : 2 ≤ (w.simpleStack p).length) :
    (w.flushMember p).db = w.db := by
  have hself : ∀ acc, acc = w.dbAccess p → (w.setDb p acc).db = w.db := by
    rintro acc rfl
    exact Function.update_eq_self _ _
  unfold flushMember
  split_ifs with hp
  · rw [setSimple_db]
    exact hself _ (SimpleStack.flush_fst_of_base _ p hs)
  · rw [setComposite_db]
    exact hself _ (CacheStack.flush_fst_of_base _ p hc)

omit [∀ p, DbUtil (Key p)] in
theorem db_foldl {l : List PrefixType}
    (h : ∀ p ∈ l, 2 ≤ (w.compositeStack p).length ∧ 2 ≤ (w.simpleStack p).length) :
    (l.foldl flushMember w).db = w.db := by
  induction l generalizing w with
  | nil => rfl
  | cons p l ih =>
    have hframe := flushFrame_flushMember w p
    have hp := h p List.mem_cons_self
    rw [List.foldl_cons, ih fun q hq => ?_, db_flushMember hp.1 hp.2]
    rw [(hframe.composite q).1, (hframe.simple q).1]
    exact h q (List.mem_cons_of_mem _ hq)

end Below

end CCacheWrapper

/-! ## Nested transactions -/

namespace Nested

open CCacheWrapper

variable {Key Val : PrefixType → Type} [∀ p, LinearOrder (Key p)] [∀ p, Serial (Key p)]
  [∀ p, DbUtil (Key p)] [∀ p, Serial (Val p)] [∀ p, DbUtil (Val p)]

/-- The levels of the wrappers show the flat maps `vs`. -/
structure Refines (t : Nested Key Val) (vs : List (Views Key Val)) : Prop where
  stored : t.top.Stored
  depth : t.top.Depth (t.logs.length + 1)
  length : vs.length = t.logs.length + 2
  same : ∀ j v, vs[j]? = some v → (t.top.levelViews j).Same v

/-- Every read of the topmost wrapper answers from `v`. -/
def Reads (t : Nested Key Val) (v : Views Key Val) : Prop :=
  ∀ p ∈ members,
    (p.isSimple = false → ∀ key, isEmpty key = false →
      (CacheStack.getData (t.top.dbAccess p) p (t.top.compositeStack p) key).2 = v.composite p key ∧
      (CacheStack.hasData (t.top.dbAccess p) p (t.top.compositeStack p) key).2 = (v.composite p key).isSome) ∧
    (p.isSimple = true →
      (SimpleStack.getData (t.top.dbAccess p) p (t.top.simpleStack p)).map Prod.snd = some (v.single p) ∧
      (SimpleStack.hasData (t.top.dbAccess p) p (t.top.simpleStack p)).map Prod.snd = some (v.single p).isSome)

variable {t : Nested Key Val} {v : Views Key Val} {vs : List (Views Key Val)}

theorem Refines.exists_cons (h : t.Refines vs) : ∃ v u vs', vs = v :: u :: vs' := by
  have hlen := h.length
  rcases vs with _ | ⟨v, _ | ⟨u, vs⟩⟩
  · exact absurd hlen (by simp)
  · exact absurd hlen (by simp)
  · exact ⟨v, u, vs, rfl⟩

theorem Refines.reads (h : t.Refines (v :: vs)) : t.Reads v := by
  intro p hp
  obtain ⟨hcomp, hsimple⟩ := h.same 0 v rfl p hp
  refine ⟨fun hs key hkey => ?_, fun hs => ?_⟩
  · rw [← hcomp hs key hkey]
    exact ⟨CacheStack.getData_snd _ p hkey _, CacheStack.hasData_snd _ p hkey _⟩
  · obtain ⟨r, hr⟩ := SimpleStack.getDataPtr_isSome _ p (h.stored p hp hs) (t.top.simpleStack p)
    rw [← hsimple hs, SimpleStack.getData, SimpleStack.hasData, hr]
    simp only [Option.map_some, (SimpleStack.getDataPtr_spec _ p hr).1]
    exact ⟨rfl, rfl⟩

variable [∀ p, LawfulSerial (Val p)] [∀ p, LawfulDbUtil (Val p)]

theorem Refines.op (h : t.Refines (v :: vs)) {o : WrapperOp Key Val} (ho : o.Valid) :
    ∃ w, t.top.step o = some w ∧ Refines ⟨w, t.logs⟩ (v.write o :: vs) := by
  obtain ⟨w, hw, hshows⟩ := step_shows h.stored ho
  have hbelow := step_sameBelow hw
  refine ⟨w, hw, ⟨fun p hp hs => ?_, fun p hp => ?_, h.length, fun j v' hv' => ?_⟩⟩
  · rw [dbAccess, hshows.db]
    exact h.stored p hp hs
  · rw [(hbelow.composite p).1, (hbelow.simple p).1]
    exact h.depth p hp
  · cases j with
    | zero =>
      obtain rfl : v.write o = v' := Option.some.inj hv'
      refine Views.Same.trans (fun p hp => ⟨fun hs key hkey => ?_, fun hs => ?_⟩) ((h.same 0 v rfl).write o)
      · exact (hshows.composite p hp hs key hkey).trans (by rw [lastSome_cons]; rfl)
      · exact (hshows.simple p hp hs).trans (by rw [lastSome_cons]; rfl)
    | succ j =>
      refine Views.Same.trans (fun p hp => ⟨fun _ key _ => ?_, fun _ => ?_⟩) (h.same (j + 1) v' hv')
      · exact congrFun ((hbelow.composite p).2 j) key
      · exact (hbelow.simple p).2 j

omit [∀ p, LawfulSerial (Val p)] [∀ p, LawfulDbUtil (Val p)] in
theorem Refines.construct (h : t.Refines (v :: vs)) :
    Refines ⟨t.top.setBaseViewPtr, (t.top.pDbOpLogMap, t.top.dbOpLogMap) :: t.logs⟩ (v :: v :: vs) where
  stored := h.stored
  depth p hp := ⟨congrArg Nat.succ (h.depth p hp).1, congrArg Nat.succ (h.depth p hp).2⟩
  length := congrArg Nat.succ h.length
  same j v' hv' := by
    cases j with
    | zero =>
      obtain rfl : v = v' := Option.some.inj hv'
      refine Views.Same.trans (fun p hp => ⟨fun _ key _ => ?_, fun _ => rfl⟩) (h.same 0 v rfl)
      exact congrFun (view_setBaseViewPtr t.top p) key
    | succ j => exact h.same j v' hv'

omit [∀ p, LawfulSerial (Val p)] [∀ p, LawfulDbUtil (Val p)] in
theorem Refines.destroy {w : CCacheWrapper Key Val} {log : (PrefixType → Bool) × CDBOpLogMap}
    {logs : List ((PrefixType → Bool) × CDBOpLogMap)} (h : Refines ⟨w, log :: logs⟩ (v :: vs)) :
    Refines ⟨w.base log, logs⟩ vs := by
  have hcomp : ∀ p ∈ members, (w.base log).compositeStack p = (w.compositeStack p).tail := by
    intro p hp
    obtain ⟨c, s, hs⟩ := List.exists_cons_of_length_pos (l := w.compositeBase p)
      (by have := Nat.succ.inj (h.depth p hp).1; rw [this]; exact Nat.succ_pos _)
    simp [compositeStack, base, hs]
  have hsimple : ∀ p ∈ members, (w.base log).simpleStack p = (w.simpleStack p).tail := by
    intro p hp
    obtain ⟨c, s, hs⟩ := List.exists_cons_of_length_pos (l := w.simpleBase p)
      (by have := Nat.succ.inj (h.depth p hp).2; rw [this]; exact Nat.succ_pos _)
    simp [simpleStack, base, hs]
  refine ⟨h.stored, fun p hp => ?_, Nat.succ.inj h.length, fun j v' hv' => ?_⟩
  · rw [hcomp p hp, hsimple p hp, List.length_tail, List.length_tail, (h.depth p hp).1, (h.depth p hp).2]
    exact ⟨rfl, rfl⟩
  · refine Views.Same.trans (fun p hp => ⟨fun _ key _ => ?_, fun _ => ?_⟩) (h.same (j + 1) v' hv')
    · simp only [levelViews, hcomp p hp, List.drop_tail]
      rfl
    · simp only [levelViews, hsimple p hp, List.drop_tail]
      rfl

variable [∀ p, LawfulSerial (Key p)]

omit [∀ p, LawfulDbUtil (Val p)] in
theorem Refines.flush {u : Views Key Val} (h : t.Refines (v :: u :: vs)) :
    Refines ⟨t.top.flush, t.logs⟩ (v :: v :: vs) := by
  have hflush : ∀ p ∈ members, FlushedAt p t.top t.top.flush := fun p hp => flushedAt_flush t.top hp
  have hframe : FlushFrame t.top t.top.flush := flushFrame_foldl t.top members
  have hstored := stored_flush h.stored
  have hdb : 1 ≤ t.logs.length → t.top.flush.db = t.top.db := fun hlogs => db_foldl fun p hp => by
    rw [(h.depth p hp).1, (h.depth p hp).2]
    omega
  generalize t.top.flush = w at *
  refine ⟨hstored, fun p hp => ?_, h.length, fun j v' hv' => ?_⟩
  · rw [(hframe.composite p).1, (hframe.simple p).1]
    exact h.depth p hp
  · rcases j with _ | _ | j
    · obtain rfl : v = v' := Option.some.inj hv'
      refine Views.Same.trans ?_ (h.same 0 v rfl)
      rw [levelViews_zero, levelViews_zero]
      exact fun p hp => ⟨fun hs key _ => congrFun ((sameViews_flushed hflush p hp).1 hs) key,
        (sameViews_flushed hflush p hp).2⟩
    · obtain rfl : v = v' := Option.some.inj hv'
      refine Views.Same.trans ?_ (h.same 0 v rfl)
      rw [Nat.zero_add, levelViews_one, levelViews_zero]
      exact fun p hp => ⟨fun hs key _ => congrFun ((hflush p hp).composite hs).2 key,
        fun hs => ((hflush p hp).simple hs).2⟩
    · -- a level further down: there are caches between, so the databases are not written
      obtain ⟨hlt, -⟩ := List.getElem?_eq_some_iff.mp hv'
      have hlen : (v :: v :: vs).length = t.logs.length + 2 := h.length
      have hlevel : w.levelViews (j + 1 + 1) = t.top.levelViews (j + 1 + 1) := by
        simp only [levelViews, dbAccess, hdb (by omega)]
        congr 1
        · funext p key
          rw [Nat.add_assoc, Nat.add_comm j, ← List.drop_drop, (hframe.composite p).2, List.drop_drop]
        · funext p
          rw [Nat.add_assoc, Nat.add_comm j, ← List.drop_drop, (hframe.simple p).2, List.drop_drop]
      rw [hlevel]
      exact h.same (j + 1 + 1) v' hv'

/-- **One step** of the wrappers and of the flat maps. -/
theorem step_refines (h : t.Refines vs) {op : NestedOp Key Val} (hop : op.Valid) :
    (t.step op = none ∧ Views.step vs op = none) ∨
      ∃ t' vs', t.step op = some t' ∧ Views.step vs op = some vs' ∧ t'.Refines vs' := by
  obtain ⟨w, logs⟩ := t
  obtain ⟨v, u, vs, rfl⟩ := h.exists_cons
  cases op with
  | op o =>
    obtain ⟨w', hw', h'⟩ := h.op hop
    exact .inr ⟨_, _, by rw [step, hw']; rfl, rfl, h'⟩
  | construct => exact .inr ⟨_, _, rfl, rfl, h.construct⟩
  | flush => exact .inr ⟨_, _, rfl, rfl, h.flush⟩
  | destroy =>
    cases logs with
    | nil =>
      obtain rfl : vs = [] := List.eq_nil_of_length_eq_zero (Nat.succ.inj (Nat.succ.inj h.length))
      exact .inl ⟨rfl, rfl⟩
    | cons log logs =>
      obtain ⟨v', vs, rfl⟩ : ∃ v' vs', vs = v' :: vs' :=
        List.exists_cons_of_length_pos
          (by have := Nat.succ.inj (Nat.succ.inj h.length); rw [this]; exact Nat.succ_pos _)
      exact .inr ⟨_, _, rfl, rfl, h.destroy⟩

/-- **A run** of the wrappers and of the flat maps. -/
theorem run_refines (h : t.Refines vs) {ops : List (NestedOp Key Val)} (hops : ∀ op ∈ ops, op.Valid) :
    (run step t ops = none ∧ run Views.step vs ops = none) ∨
      ∃ t' vs', run step t ops = some t' ∧ run Views.step vs ops = some vs' ∧ t'.Refines vs' := by
  induction ops generalizing t vs with
  | nil => exact .inr ⟨t, vs, rfl, rfl, h⟩
  | cons op ops ih =>
    rw [run_cons, run_cons]
    obtain ⟨ht, hv⟩ | ⟨t₁, vs₁, ht, hv, h₁⟩ := step_refines h (hops op List.mem_cons_self)
    · rw [ht, hv]
      exact .inl ⟨rfl, rfl⟩
    · rw [ht, hv]
      exact ih h₁ fun op' hop => hops op' (List.mem_cons_of_mem _ hop)

/-- The flat maps of all the levels of a wrapper with `n` caches for every member. -/
def allViews (w : CCacheWrapper Key Val) (n : ℕ) : List (Views Key Val) := (List.range (n + 1)).map w.levelViews

omit [∀ p, LawfulSerial (Key p)] [∀ p, LawfulSerial (Val p)] [∀ p, LawfulDbUtil (Val p)] in
theorem refines_allViews {w : CCacheWrapper Key Val} {logs : List ((PrefixType → Bool) × CDBOpLogMap)}
    (hdb : w.Stored) (hdepth : w.Depth (logs.length + 1)) : Refines ⟨w, logs⟩ (allViews w (logs.length + 1)) where
  stored := hdb
  depth := hdepth
  length := by rw [allViews, List.length_map, List.length_range]
  same j v hv := by
    rw [allViews, List.getElem?_map] at hv
    obtain ⟨j', hj, rfl⟩ := Option.map_eq_some_iff.mp hv
    obtain ⟨hlt, rfl⟩ := List.getElem?_eq_some_iff.mp hj
    rw [List.getElem_range]
    exact Views.Same.refl _

/-- **Nested wrappers are nested transactions.** From any wrapper, over databases as the assertion of `GetDataPtr`
wants them and with equally many caches for every member, every run of operations on the topmost wrapper, of new
wrappers on it, of flushes and of destructions does to all levels, down to the databases, what the same run does to
a stack of flat maps; it stops where that stops, and afterwards every read answers from the first of the maps. -/
theorem nested_refines_views {w : CCacheWrapper Key Val} (hdb : w.Stored)
    {logs : List ((PrefixType → Bool) × CDBOpLogMap)} (hdepth : w.Depth (logs.length + 1))
    {ops : List (NestedOp Key Val)} (hops : ∀ op ∈ ops, op.Valid) :
    (run step ⟨w, logs⟩ ops = none ∧ run Views.step (allViews w (logs.length + 1)) ops = none) ∨
      ∃ t v vs, run step ⟨w, logs⟩ ops = some t ∧
        run Views.step (allViews w (logs.length + 1)) ops = some (v :: vs) ∧ t.Reads v ∧
          ∀ j v', (v :: vs)[j]? = some v' → (t.top.levelViews j).Same v' := by
  refine (run_refines (refines_allViews hdb hdepth) hops).imp id ?_
  rintro ⟨t, vs, hrun, hviews, h⟩
  obtain ⟨v, u, vs, rfl⟩ := h.exists_cons
  exact ⟨t, v, u :: vs, hrun, hviews, h.reads, h.same⟩

/-- A wrapper on a cache over an empty database: what a first child sets is flushed, and what a second one sets is
lost when that is destroyed. -/
theorem nested_refines_views_byte :
    let w : CCacheWrapper (fun _ => Byte) (fun _ => Byte) :=
      ⟨fun d => ⟨d, ∅⟩, fun _ => ⟨∅, false, 0⟩, fun _ => [], fun _ => ⟨none⟩, fun _ => [], fun _ => false, ∅⟩
    ∃ t, run step ⟨w, []⟩ [.construct, .op (.setData .sysParam 3 7), .flush, .destroy, .construct,
        .op (.setData .sysParam 3 8), .destroy] = some t ∧
      (CacheStack.getData (t.top.dbAccess .sysParam) .sysParam (t.top.compositeStack .sysParam) 3).2 = some 7 := by
  intro w
  have hdb : w.Stored := by
    intro p _ _ v hv
    have hempty : w.dbAccess p = ⟨getDbNameEnumByPrefix p, ∅⟩ := rfl
    rw [hempty] at hv
    cases hv
  have hmem : PrefixType.sysParam ∈ members ∧ PrefixType.sysParam.isSimple = false := by decide
  have hops : ∀ op ∈ ([.construct, .op (.setData .sysParam 3 7), .flush, .destroy, .construct,
      .op (.setData .sysParam 3 8), .destroy] : List (NestedOp (fun _ => Byte) fun _ => Byte)), op.Valid := by
    simp [NestedOp.Valid, WrapperOp.Valid, hmem]
  have hdepth : w.Depth 1 := fun _ _ => ⟨rfl, rfl⟩
  obtain ⟨-, hnone⟩ | ⟨t, v, vs, hrun, hviews, hreads, -⟩ :=
    @nested_refines_views _ _ _ _ _ _ _ _ _ _ _ hdb [] hdepth _ hops
  · exact absurd hnone (Option.some_ne_none _)
  · refine ⟨t, hrun, ((hreads _ hmem.1).1 hmem.2 3 rfl).1.trans ?_⟩
    obtain ⟨rfl, -⟩ := List.cons.inj (Option.some.inj hviews)
    rfl

end Nested

end Inery
