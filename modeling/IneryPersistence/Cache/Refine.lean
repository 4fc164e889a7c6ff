import IneryPersistence.Cache.Composite

/-!
# A stack of caches is one flat map

The view of a level is the flat map that the cache there stands for, with everything under it.

* `getData_snd`, `view_getData`: a read answers from the view and moves none;
* `view_setData`, `view_eraseData`: a write moves the view of its own cache, at its key;
* `view_flush`, `view_flush_base`: a flush gives the view to the level below;
* **`stack_refines_flat_map`**: all of this for every level of every stack.
-/

namespace Inery

open KV

namespace CacheStack

section View

variable {K V : Type} [LinearOrder K] [Serial K] [Serial V] [DbUtil V]
variable (acc : CDBAccess) (p : PrefixType)

@[simp] theorem view_nil (key : K) : view (V := V) acc p [] key = live (acc.getData p key) := rfl

theorem view_eq (s : CacheStack K V) : view acc p s = fun key => live (find acc p s key) := rfl

theorem view_cons_of_some {c : IneryCompositeKVCache K V} {s : CacheStack K V} {key : K} {v : V}
    (h : c.mapData.find? key = some v) : view acc p (c :: s) key = live (some v) := by
  rw [view, find_cons, override_of_some h]

theorem view_cons_of_none {c : IneryCompositeKVCache K V} {s : CacheStack K V} {key : K}
    (h : c.mapData.find? key = none) : view acc p (c :: s) key = view acc p s key := by
  rw [view, find_cons, override_of_none h, view]

theorem view_append_at (us : CacheStack K V) {s s' : CacheStack K V} {acc' : CDBAccess} {key : K}
    (h : view acc p s key = view acc' p s' key) :
    view acc p (us ++ s) key = view acc' p (us ++ s') key := by
  induction us with
  | nil => exact h
  | cons c us ih =>
    rw [List.cons_append, List.cons_append]
    cases hc : c.mapData.find? key with
    | some v => rw [view_cons_of_some acc p hc, view_cons_of_some acc' p hc]
    | none => rw [view_cons_of_none acc p hc, view_cons_of_none acc' p hc, ih]

theorem view_append_congr (us : CacheStack K V) {s s' : CacheStack K V} {acc' : CDBAccess}
    (h : view acc p s = view acc' p s') : view acc p (us ++ s) = view acc' p (us ++ s') :=
  funext fun key => view_append_at acc p us (congrFun h key)

theorem view_drop_append (us : CacheStack K V) {s s' : CacheStack K V}
    (h : ∀ j, view acc p (s.drop j) = view acc p (s'.drop j)) (j : ℕ) :
    view acc p ((us ++ s).drop j) = view acc p ((us ++ s').drop j) := by
  rw [List.drop_append, List.drop_append]
  rcases Nat.lt_or_ge j us.length with hj | hj
  · rw [Nat.sub_eq_zero_of_le hj.le]
    exact view_append_congr acc p _ (h 0)
  · rw [List.drop_of_length_le hj]
    exact h _

end View

section Access

variable {K V : Type} [LinearOrder K] [Serial K] [DbUtil K] [Serial V] [DbUtil V]
variable (acc : CDBAccess) (p : PrefixType)

omit [DbUtil K] in
theorem view_getDataIt (key : K) (s : CacheStack K V) (j : ℕ) :
    view acc p ((getDataIt acc p key s).1.drop j) = view acc p (s.drop j) := by
  rw [view_eq, view_eq, find_getDataIt]

omit [DbUtil K] in
theorem getDataIt_cons (c : IneryCompositeKVCache K V) (s : CacheStack K V) (key : K) :
    ∃ c' s', (getDataIt acc p key (c :: s)).1 = c' :: s' ∧
      view acc p (c' :: s') = view acc p (c :: s) := by
  obtain ⟨c', s', hit, -, -⟩ := find?_getDataIt acc p key c s
  refine ⟨c', s', hit, ?_⟩
  rw [← hit]
  exact view_getDataIt acc p key (c :: s) 0

/-! ## Reads -/

theorem hasData_fst (s : CacheStack K V) (key : K) :
    (hasData acc p s key).1 = (getData acc p s key).1 := by
  unfold hasData getData
  split_ifs <;> rfl

theorem hasData_eq (s : CacheStack K V) (key : K) :
    hasData acc p s key = ((getData acc p s key).1, (getData acc p s key).2.isSome) := by
  unfold hasData getData
  split_ifs <;> rfl

theorem getData_cons (c : IneryCompositeKVCache K V) (s : CacheStack K V) (key : K) :
    ∃ c' s', (getData acc p (c :: s) key).1 = c' :: s' ∧
      view acc p (c' :: s') = view acc p (c :: s) := by
  unfold getData
  split_ifs
  · exact ⟨c, s, rfl, rfl⟩
  · exact getDataIt_cons acc p c s key

theorem length_getData (s : CacheStack K V) (key : K) : (getData acc p s key).1.length = s.length := by
  unfold getData
  split_ifs
  · rfl
  · exact length_getDataIt acc p key s

variable {key : K} (hkey : isEmpty key = false)

include hkey

theorem getData_snd (s : CacheStack K V) : (getData acc p s key).2 = view acc p s key := by
  simp [getData, hkey, getDataIt_snd, view]

theorem hasData_snd (s : CacheStack K V) : (hasData acc p s key).2 = (view acc p s key).isSome := by
  simp [hasData, hkey, getDataIt_snd, view]

theorem view_getData (s : CacheStack K V) (j : ℕ) :
    view acc p ((getData acc p s key).1.drop j) = view acc p (s.drop j) := by
  simp only [getData, hkey]
  exact view_getDataIt acc p key s j

/-! ## Writes -/

/-- What `SetData` does: the cache that answered the read gets the new value. -/
theorem setData_cons (log : Option CDBOpLogMap) (c : IneryCompositeKVCache K V) (s : CacheStack K V)
    (v : V) : ∃ c₁ c₂ s', (getDataIt acc p key (c :: s)).1 = c₁ :: s' ∧
      c₂.mapData = c₁.mapData.insert key v ∧
        setData acc p log (c :: s) key v = (c₂ :: s', true,
          addOpLog log p (ser key) ((find acc p (c :: s) key).getD (makeEmptyValue V))) := by
  obtain ⟨c₁, s', hit, -, -⟩ := find?_getDataIt acc p key c s
  have hsnd := getDataIt_snd acc p key (c :: s)
  rcases hr : getDataIt acc p key (c :: s) with ⟨s₁, o⟩
  obtain rfl : s₁ = c₁ :: s' := by rw [← hit, hr]
  rw [hr] at hsnd
  cases o with
  | none =>
    refine ⟨c₁, c₁.addDataToMap key v, s', rfl, by simp, ?_⟩
    simp [setData, hkey, hr, ← hsnd]
  | some old =>
    refine ⟨c₁, (c₁.updateDataSize old v).assign key v, s', rfl, by simp, ?_⟩
    simp [setData, hkey, hr, ← hsnd]

/-- What `EraseData` does: a live value is set empty, and an absent one is left. -/
theorem eraseData_cons (log : Option CDBOpLogMap) (c : IneryCompositeKVCache K V)
    (s : CacheStack K V) :
    (view acc p (c :: s) key = none ∧
      eraseData acc p log (c :: s) key = ((getDataIt acc p key (c :: s)).1, true, log)) ∨
    ∃ old c₁ c₂ s', view acc p (c :: s) key = some old ∧
      (getDataIt acc p key (c :: s)).1 = c₁ :: s' ∧
        c₂.mapData = c₁.mapData.insert key (setEmpty old) ∧
          eraseData acc p log (c :: s) key = (c₂ :: s', true, addOpLog log p (ser key) old) := by
  obtain ⟨c₁, s', hit, -, -⟩ := find?_getDataIt acc p key c s
  have hsnd := getDataIt_snd acc p key (c :: s)
  rcases hr : getDataIt acc p key (c :: s) with ⟨s₁, o⟩
  obtain rfl : s₁ = c₁ :: s' := by rw [← hit, hr]
  rw [hr] at hsnd
  cases o with
  | none =>
    refine .inl ⟨?_, ?_⟩
    · rw [view, ← hsnd, live_none]
    · simp [eraseData, hkey, hr]
  | some old =>
    cases he : isEmpty old with
    | true =>
      refine .inl ⟨?_, ?_⟩
      · rw [view, ← hsnd, live_of_isEmpty he]
      · simp [eraseData, hkey, hr, he]
    | false =>
      refine .inr ⟨old, c₁,
        ((c₁.decDataSize old).assign key (setEmpty old)).incValueSize (setEmpty old), s', ?_, rfl,
        by simp, ?_⟩
      · rw [view, ← hsnd, live_of_not_isEmpty he]
      · simp [eraseData, hkey, hr, he]

omit hkey in
theorem length_setData (log : Option CDBOpLogMap) (c : IneryCompositeKVCache K V) (s : CacheStack K V) (key : K)
    (v : V) : (setData acc p log (c :: s) key v).1.length = (c :: s).length := by
  cases hkey : isEmpty key with
  | true => rw [setData, if_pos hkey]
  | false =>
    obtain ⟨c₁, c₂, s', hit, -, hset⟩ := setData_cons acc p hkey log c s v
    have hlen := length_getDataIt acc p key (c :: s)
    rw [hit] at hlen
    rw [hset]
    exact hlen

omit hkey in
theorem length_eraseData (log : Option CDBOpLogMap) (c : IneryCompositeKVCache K V) (s : CacheStack K V) (key : K) :
    (eraseData acc p log (c :: s) key).1.length = (c :: s).length := by
  have hlen := length_getDataIt acc p key (c :: s)
  cases hkey : isEmpty key with
  | true => rw [eraseData, if_pos hkey]
  | false =>
    obtain ⟨-, her⟩ | ⟨old, c₁, c₂, s', -, hit, -, her⟩ := eraseData_cons acc p hkey log c s
    · rw [her]
      exact hlen
    · rw [hit] at hlen
      rw [her]
      exact hlen

omit hkey [DbUtil K] in
theorem view_of_insert {s : CacheStack K V} {c₁ c₂ : IneryCompositeKVCache K V} {s' : CacheStack K V}
    {v : V} (hit : (getDataIt acc p key s).1 = c₁ :: s')
    (hc : c₂.mapData = c₁.mapData.insert key v) :
    view acc p (c₂ :: s') = Function.update (view acc p s) key (live (some v)) ∧
      ∀ j, view acc p (s'.drop j) = view acc p (s.drop (j + 1)) := by
  constructor
  · have hv := view_getDataIt acc p key s 0
    rw [List.drop_zero, List.drop_zero, hit] at hv
    rw [← hv, view_eq, view_eq, find_cons, find_cons, hc, SortedMap.find?_insert_eq_update,
      override_update]
    funext k
    by_cases h : k = key
    · subst h
      simp
    · simp [Function.update_of_ne h]
  · intro j
    have hv := view_getDataIt acc p key s (j + 1)
    rwa [hit, List.drop_succ_cons] at hv

theorem view_setData (log : Option CDBOpLogMap) (c : IneryCompositeKVCache K V) (s : CacheStack K V)
    (v : V) : view acc p (setData acc p log (c :: s) key v).1 =
      Function.update (view acc p (c :: s)) key (live (some v)) := by
  obtain ⟨c₁, c₂, s', hit, hc, hset⟩ := setData_cons acc p hkey log c s v
  rw [hset]
  exact (view_of_insert acc p hit hc).1

theorem view_setData_drop (log : Option CDBOpLogMap) (c : IneryCompositeKVCache K V)
    (s : CacheStack K V) (v : V) (j : ℕ) :
    view acc p ((setData acc p log (c :: s) key v).1.drop (j + 1)) = view acc p (s.drop j) := by
  obtain ⟨c₁, c₂, s', hit, hc, hset⟩ := setData_cons acc p hkey log c s v
  rw [hset, List.drop_succ_cons, (view_of_insert acc p hit hc).2 j, List.drop_succ_cons]

variable [LawfulDbUtil V]

theorem view_eraseData (log : Option CDBOpLogMap) (c : IneryCompositeKVCache K V)
    (s : CacheStack K V) : view acc p (eraseData acc p log (c :: s) key).1 =
      Function.update (view acc p (c :: s)) key none := by
  obtain ⟨hnone, her⟩ | ⟨old, c₁, c₂, s', -, hit, hc, her⟩ := eraseData_cons acc p hkey log c s
  · have hv := view_getDataIt acc p key (c :: s) 0
    rw [her, ← hnone, Function.update_eq_self]
    simpa using hv
  · have h := (view_of_insert acc p hit hc).1
    rw [live_of_isEmpty (LawfulDbUtil.isEmpty_setEmpty old)] at h
    rw [her, h]

omit [LawfulDbUtil V] in
theorem view_eraseData_drop (log : Option CDBOpLogMap) (c : IneryCompositeKVCache K V)
    (s : CacheStack K V) (j : ℕ) :
    view acc p ((eraseData acc p log (c :: s) key).1.drop (j + 1)) = view acc p (s.drop j) := by
  obtain ⟨-, her⟩ | ⟨old, c₁, c₂, s', -, hit, hc, her⟩ := eraseData_cons acc p hkey log c s
  · rw [her, view_getDataIt, List.drop_succ_cons]
  · rw [her, List.drop_succ_cons, (view_of_insert acc p hit hc).2 j, List.drop_succ_cons]

omit [LawfulDbUtil V] in
theorem getData_spec {s : CacheStack K V} (hs : s ≠ []) :
    ∃ s', getData acc p s key = (s', view acc p s key) ∧ s' ≠ [] ∧ view acc p s' = view acc p s := by
  have hview := view_getData acc p hkey s 0
  rw [List.drop_zero, List.drop_zero] at hview
  refine ⟨_, Prod.ext rfl (getData_snd acc p hkey s), ?_, hview⟩
  rw [ne_eq, ← List.length_eq_zero_iff, length_getData, List.length_eq_zero_iff]
  exact hs

omit [LawfulDbUtil V] in
theorem setData_spec (log : Option CDBOpLogMap) {s : CacheStack K V} (hs : s ≠ []) (v : V) :
    ∃ s' log', setData acc p log s key v = (s', true, log') ∧ s' ≠ [] ∧
      view acc p s' = Function.update (view acc p s) key (live (some v)) := by
  obtain ⟨c, s, rfl⟩ := List.exists_cons_of_ne_nil hs
  obtain ⟨c₁, c₂, s', hit, hc, hset⟩ := setData_cons acc p hkey log c s v
  exact ⟨_, _, hset, List.cons_ne_nil _ _, (view_of_insert acc p hit hc).1⟩

theorem eraseData_spec (log : Option CDBOpLogMap) {s : CacheStack K V} (hs : s ≠ []) :
    ∃ s' log', eraseData acc p log s key = (s', true, log') ∧ s' ≠ [] ∧
      view acc p s' = Function.update (view acc p s) key none := by
  obtain ⟨c, s, rfl⟩ := List.exists_cons_of_ne_nil hs
  have hview := view_eraseData acc p hkey log c s
  obtain ⟨-, her⟩ | ⟨old, c₁, c₂, s', -, hit, hc, her⟩ := eraseData_cons acc p hkey log c s
  · obtain ⟨c', s', hcons, -⟩ := find?_getDataIt acc p key c s
    rw [her] at hview ⊢
    exact ⟨_, _, rfl, by simp [hcons], hview⟩
  · rw [her] at hview ⊢
    exact ⟨_, _, rfl, List.cons_ne_nil _ _, hview⟩

end Access

/-! ## Flush -/

section Flush

variable {K V : Type} [LinearOrder K] [Serial K] [DbUtil K] [Serial V] [DbUtil V] [LawfulSerial V]
variable (acc : CDBAccess) (p : PrefixType)

omit [DbUtil K] in
theorem view_flush_base (hinj : Function.Injective (genDbKey (K := K) p))
    (c : IneryCompositeKVCache K V) (s : CacheStack K V) :
    view (flush acc p (c :: s)).1 p ((flush acc p (c :: s)).2.drop 1) = view acc p (c :: s) := by
  cases s with
  | nil => exact funext fun key => live_find_flush_root acc p hinj c key
  | cons b s => rw [view_eq, view_eq, ← find_flush acc p c b s]; rfl

omit [DbUtil K] [LawfulSerial V] in
theorem flush_cons (c : IneryCompositeKVCache K V) (s : CacheStack K V) :
    (flush acc p (c :: s)).2 = c.clear :: (flush acc p (c :: s)).2.drop 1 := by
  cases s <;> rfl

omit [DbUtil K] in
theorem view_flush (hinj : Function.Injective (genDbKey (K := K) p))
    (c : IneryCompositeKVCache K V) (s : CacheStack K V) :
    view (flush acc p (c :: s)).1 p (flush acc p (c :: s)).2 = view acc p (c :: s) := by
  funext key
  rw [flush_cons, view_cons_of_none _ p (c := c.clear) rfl, view_flush_base acc p hinj]

end Flush

/-! ## The refinement -/

section Refinement

variable {K V : Type} [LinearOrder K] [Serial K] [DbUtil K] [Serial V] [DbUtil V]
  [LawfulSerial V] [LawfulDbUtil V]

/-- **Every level of every stack refines the flat map of its view.** The stack is any list of caches,
`c` is one of them with `us` above and `bs` below, and level `j` counts from the top. Reads answer
from the view and move no level's, writes move the view of `c` at their key and none below, and a
flush hands the view of `c` to the base or the database. -/
theorem stack_refines_flat_map (p : PrefixType) (hinj : Function.Injective (genDbKey (K := K) p))
    (acc : CDBAccess) (log : Option CDBOpLogMap) (us : CacheStack K V)
    (c : IneryCompositeKVCache K V) (bs : CacheStack K V) :
    (∀ key : K, isEmpty key = false →
      ((getData acc p (c :: bs) key).2 = view acc p (c :: bs) key ∧
        ∀ j, view acc p ((us ++ (getData acc p (c :: bs) key).1).drop j) =
          view acc p ((us ++ c :: bs).drop j)) ∧
      ((hasData acc p (c :: bs) key).2 = (view acc p (c :: bs) key).isSome ∧
        ∀ j, view acc p ((us ++ (hasData acc p (c :: bs) key).1).drop j) =
          view acc p ((us ++ c :: bs).drop j)) ∧
      (∀ v, view acc p (setData acc p log (c :: bs) key v).1 =
          Function.update (view acc p (c :: bs)) key (live (some v)) ∧
        ∀ j, view acc p ((setData acc p log (c :: bs) key v).1.drop (j + 1)) =
          view acc p (bs.drop j)) ∧
      (view acc p (eraseData acc p log (c :: bs) key).1 =
          Function.update (view acc p (c :: bs)) key none ∧
        ∀ j, view acc p ((eraseData acc p log (c :: bs) key).1.drop (j + 1)) =
          view acc p (bs.drop j))) ∧
    ∃ c' bs', (flush acc p (c :: bs)).2 = c' :: bs' ∧ bs'.length = bs.length ∧ c'.mapData = ∅ ∧
      view (flush acc p (c :: bs)).1 p (c' :: bs') = view acc p (c :: bs) ∧
      view (flush acc p (c :: bs)).1 p bs' = view acc p (c :: bs) := by
  refine ⟨fun key hkey => ⟨⟨getData_snd acc p hkey _, ?_⟩, ⟨hasData_snd acc p hkey _, ?_⟩,
    fun v => ⟨view_setData acc p hkey log c bs v, view_setData_drop acc p hkey log c bs v⟩,
    view_eraseData acc p hkey log c bs, view_eraseData_drop acc p hkey log c bs⟩, ?_⟩
  · exact view_drop_append acc p us (view_getData acc p hkey _)
  · rw [hasData_fst]
    exact view_drop_append acc p us (view_getData acc p hkey _)
  · refine ⟨c.clear, _, flush_cons acc p c bs, ?_, rfl, ?_, view_flush_base acc p hinj c bs⟩
    · cases bs <;> rfl
    · rw [← flush_cons]
      exact view_flush acc p hinj c bs

/-- A cache with an entry and a deletion, over a cache whose entry is hidden by the deletion. -/
theorem stack_refines_flat_map_byte :
    let c : IneryCompositeKVCache Byte Byte := ⟨((∅ : SortedMap _ _).insert 1 5).insert 2 0, false, 0⟩
    let b : IneryCompositeKVCache Byte Byte := ⟨(∅ : SortedMap _ _).insert 2 7, true, 2⟩
    let acc : CDBAccess := ⟨.account, ∅⟩
    (getData acc .keyidAccount [c, b] 1).2 = some 5 ∧ (getData acc .keyidAccount [c, b] 2).2 = none ∧
      ∃ c' bs', (flush acc .keyidAccount [c, b]).2 = c' :: bs' ∧
        view (flush acc .keyidAccount [c, b]).1 .keyidAccount bs' =
          view acc .keyidAccount [c, b] := by
  intro c b acc
  have h := stack_refines_flat_map .keyidAccount
    (genDbKey_injective (K := Byte) _) acc none [] c [b]
  obtain ⟨c', bs', hf, -, -, -, hv⟩ := h.2
  exact ⟨(h.1 1 rfl).1.1, (h.1 2 rfl).1.1, c', bs', hf, hv⟩

end Refinement

end CacheStack

end Inery
