import IneryPersistence.Undo.Execute

/-!
# A write at one level of a stack

A cache that is written shows the new values, and so does every cache above it that has no entries of its
own for the keys.

* `Clear`: the caches above a level hold no entry for the keys of a list;
* `Writes`: the levels from one up take the values of a list, and the others keep theirs;
* `writes_setData`, `writes_eraseData`, `writes_undoDataList`: what writes do so;
* **`view_flush_level`**: a flush gives every level the view that it, or the level above, had;
* `view_flush_among`: so it does among the flushes of other caches.
-/

namespace Inery

open KV

namespace CacheStack

variable {K V : Type} [LinearOrder K] [Serial K] [DbUtil K] [Serial V] [DbUtil V]

/-- The caches above the level `i` hold no entry for the keys of the list. -/
def Clear (i : ℕ) (keys : List K) (s : CacheStack K V) : Prop :=
  ∀ c ∈ s.take i, ∀ key ∈ keys, c.mapData.find? key = none

/-- The levels from `i` up take the values of the list, and those below keep theirs. -/
structure Writes (acc : CDBAccess) (p : PrefixType) (i : ℕ) (L : List (K × Option V)) (s s' : CacheStack K V) :
    Prop where
  length : s'.length = s.length
  upper : ∀ j ≤ i, view acc p (s'.drop j) = restore L (view acc p (s.drop j))
  lower : ∀ j, i < j → view acc p (s'.drop j) = view acc p (s.drop j)

variable (acc : CDBAccess) (p : PrefixType)

omit [DbUtil K] in
theorem view_append_of_clear {us : CacheStack K V} {key : K} (h : ∀ c ∈ us, c.mapData.find? key = none)
    (s : CacheStack K V) : view acc p (us ++ s) key = view acc p s key := by
  induction us with
  | nil => rfl
  | cons c us ih =>
    rw [List.cons_append, view_cons_of_none acc p (h c List.mem_cons_self)]
    exact ih fun c hc => h c (List.mem_cons_of_mem _ hc)

omit [Serial K] [DbUtil K] [Serial V] [DbUtil V] in
theorem drop_eq_append {i j : ℕ} {s : CacheStack K V} (hi : i ≤ s.length) (hj : j ≤ i) :
    s.drop j = (s.take i).drop j ++ s.drop i := by
  conv_lhs => rw [← List.take_append_drop i s]
  rw [List.drop_append_of_le_length (by rw [List.length_take]; omega)]

omit [DbUtil K] in
theorem view_drop_of_clear {i j : ℕ} {s : CacheStack K V} {key : K} (hi : i ≤ s.length) (hj : j ≤ i)
    (h : ∀ c ∈ s.take i, c.mapData.find? key = none) :
    view acc p (s.drop j) key = view acc p (s.drop i) key := by
  rw [drop_eq_append hi hj]
  exact view_append_of_clear acc p (fun c hc => h c (List.mem_of_mem_drop hc)) _

omit [DbUtil K] in
theorem view_append_restore {L : List (K × Option V)} {us s s' : CacheStack K V}
    (hclear : ∀ c ∈ us, ∀ key ∈ L.map Prod.fst, c.mapData.find? key = none)
    (h : view acc p s' = restore L (view acc p s)) :
    view acc p (us ++ s') = restore L (view acc p (us ++ s)) := by
  funext key
  by_cases hkey : key ∈ L.map Prod.fst
  · rw [view_append_of_clear acc p fun c hc => hclear c hc key hkey, h]
    exact restore_of_mem hkey _ _
  · rw [restore_of_notMem hkey]
    refine view_append_at acc p us ?_
    rw [h, restore_of_notMem hkey]

omit [DbUtil K] in
theorem writes_of_drop {i : ℕ} {L : List (K × Option V)} {s t : CacheStack K V} (hi : i ≤ s.length)
    (hclear : Clear i (L.map Prod.fst) s) (hlen : t.length = s.length - i)
    (htop : view acc p t = restore L (view acc p (s.drop i)))
    (hrest : ∀ j, view acc p (t.drop (j + 1)) = view acc p (s.drop (i + (j + 1)))) :
    Writes acc p i L s (s.take i ++ t) where
  length := by
    rw [List.length_append, List.length_take, hlen]
    omega
  upper j hj := by
    rw [List.drop_append_of_le_length (by rw [List.length_take]; omega), drop_eq_append hi hj]
    exact view_append_restore acc p (fun c hc => hclear c (List.mem_of_mem_drop hc)) htop
  lower j hj := by
    obtain ⟨k, rfl⟩ : ∃ k, j = i + (k + 1) := ⟨j - i - 1, by omega⟩
    rw [← hrest k, List.drop_append, List.drop_of_length_le (by rw [List.length_take]; omega),
      List.nil_append, List.length_take, show i + (k + 1) - min i s.length = k + 1 by omega]

omit [DbUtil K] in
theorem writes_refl (i : ℕ) (s : CacheStack K V) : Writes acc p i [] s s := ⟨rfl, fun _ _ => rfl, fun _ _ => rfl⟩

omit [DbUtil K] in
theorem Writes.single {acc : CDBAccess} {p : PrefixType} {i : ℕ} {key : K} {value : Option V} {s s' : CacheStack K V}
    (h : Writes acc p i [(key, value)] s s') {j : ℕ} (hj : j ≤ i) : view acc p (s'.drop j) key = value ∧
      ∀ key', key' ≠ key → view acc p (s'.drop j) key' = view acc p (s.drop j) key' := by
  have hupdate : view acc p (s'.drop j) = Function.update (view acc p (s.drop j)) key value := h.upper j hj
  rw [hupdate]
  exact ⟨Function.update_self _ _ _, fun key' hne => Function.update_of_ne hne _ _⟩

/-! ## Writes -/

section Write

variable {i : ℕ} {s : CacheStack K V} {key : K} (hkey : isEmpty key = false) (hi : i < s.length)

omit [Serial K] [DbUtil K] [Serial V] [DbUtil V] in
theorem exists_drop_eq_cons (hi : i < s.length) : ∃ c bs, s.drop i = c :: bs ∧ bs = s.drop (i + 1) :=
  ⟨s[i], s.drop (i + 1), List.drop_eq_getElem_cons hi, rfl⟩

include hkey hi

theorem writes_setData [LawfulDbUtil V] (hclear : Clear i [key] s) (log : Option CDBOpLogMap) (v : V) :
    ∃ t old, setData acc p log (s.drop i) key v = (t, true, addOpLog log p (ser key) old) ∧
      live (some old) = view acc p (s.drop i) key ∧
        Writes acc p i [(key, live (some v))] s (s.take i ++ t) := by
  obtain ⟨c, bs, hdrop, hbs⟩ := exists_drop_eq_cons hi
  obtain ⟨c₁, c₂, s', hit, -, hset⟩ := setData_cons acc p hkey log c bs v
  have hlen := length_getDataIt acc p key (c :: bs)
  have hview := view_setData acc p hkey log c bs v
  have hlower := view_setData_drop acc p hkey log c bs v
  rw [hset] at hview hlower
  rw [hit, ← hdrop, List.length_drop] at hlen
  refine ⟨c₂ :: s', (find acc p (c :: bs) key).getD (makeEmptyValue V), by rw [hdrop, hset], ?_,
    writes_of_drop acc p hi.le hclear hlen (by rw [hdrop]; exact hview) fun j => ?_⟩
  · rw [hdrop, view]
    cases find acc p (c :: bs) key with
    | none => exact live_makeEmptyValue
    | some old => rfl
  · rw [hlower j, hbs, List.drop_drop, show i + 1 + j = i + (j + 1) by omega]

theorem writes_eraseData [LawfulDbUtil V] (hclear : Clear i [key] s) (log : Option CDBOpLogMap) :
    ∃ t log', eraseData acc p log (s.drop i) key = (t, true, log') ∧
      Writes acc p i [(key, none)] s (s.take i ++ t) ∧
        (view acc p (s.drop i) key = none ∧ log' = log ∨
          ∃ old, live (some old) = view acc p (s.drop i) key ∧ log' = addOpLog log p (ser key) old) := by
  obtain ⟨c, bs, hdrop, hbs⟩ := exists_drop_eq_cons hi
  have hlen := length_getDataIt acc p key (c :: bs)
  have hview := view_eraseData acc p hkey log c bs
  have hlower := view_eraseData_drop acc p hkey log c bs
  have hrest : ∀ j, view acc p (bs.drop j) = view acc p (s.drop (i + (j + 1))) := fun j => by
    rw [hbs, List.drop_drop, show i + 1 + j = i + (j + 1) by omega]
  obtain ⟨hnone, her⟩ | ⟨old, c₁, c₂, s', hold, hit, -, her⟩ := eraseData_cons acc p hkey log c bs
  · rw [her] at hview hlower
    rw [← hdrop, List.length_drop, hdrop] at hlen
    refine ⟨_, log, by rw [hdrop, her], writes_of_drop acc p hi.le hclear hlen ?_ fun j => ?_,
      .inl ⟨by rw [hdrop, hnone], rfl⟩⟩
    · rw [hdrop]
      exact hview
    · rw [hlower j, hrest]
  · rw [her] at hview hlower
    rw [hit, ← hdrop, List.length_drop] at hlen
    have hlive : live (some old) = view acc p (c :: bs) key := by
      rw [hold]
      exact live_of_not_isEmpty (live_eq_some_iff.mp hold).2
    refine ⟨c₂ :: s', _, by rw [hdrop, her], writes_of_drop acc p hi.le hclear hlen ?_ fun j => ?_,
      .inr ⟨old, by rw [hdrop, hlive], rfl⟩⟩
    · rw [hdrop]
      exact hview
    · rw [hlower j, hrest]

omit hkey hi [DbUtil K] in
theorem writes_undoDataList [LawfulSerial K] [LawfulSerial V] (hi : i < s.length) (L : List (K × V))
    (hclear : Clear i (L.map Prod.fst) s) : ∃ c c' bs, s.drop i = c :: bs ∧
      c.undoDataList (L.map compositeLog) = some c' ∧
        Writes acc p i (L.map fun e => (e.1, live (some e.2))) s (s.take i ++ c' :: bs) := by
  obtain ⟨c, bs, hdrop, hbs⟩ := exists_drop_eq_cons hi
  obtain ⟨c', hundo, hview⟩ := view_undoDataList acc p bs L c
  refine ⟨c, c', bs, hdrop, hundo, writes_of_drop acc p hi.le ?_ ?_ ?_ fun j => ?_⟩
  · rwa [List.map_map]
  · rw [List.length_cons, hbs, List.length_drop]
    omega
  · rw [hdrop]
    exact hview
  · rw [List.drop_succ_cons, hbs, List.drop_drop, show i + 1 + j = i + (j + 1) by omega]

end Write

theorem writes_getData {i : ℕ} {s : CacheStack K V} (hi : i ≤ s.length) (key : K) :
    Writes acc p i [] s (s.take i ++ (getData acc p (s.drop i) key).1) := by
  cases hkey : isEmpty key with
  | true =>
    rw [getData, if_pos hkey, List.take_append_drop]
    exact writes_refl acc p i s
  | false =>
    have hlen : (getData acc p (s.drop i) key).1.length = s.length - i := by
      rw [length_getData, List.length_drop]
    have hview := view_getData acc p hkey (s.drop i)
    refine writes_of_drop acc p hi (fun _ _ _ hin => absurd hin List.not_mem_nil) hlen (hview 0) fun j => ?_
    rw [hview, List.drop_drop]

theorem writes_hasData {i : ℕ} {s : CacheStack K V} (hi : i ≤ s.length) (key : K) :
    Writes acc p i [] s (s.take i ++ (hasData acc p (s.drop i) key).1) := by
  rw [hasData_fst]
  exact writes_getData acc p hi key

/-! ## Flush -/

omit [DbUtil K] in
theorem length_flush (s : CacheStack K V) : (flush acc p s).2.length = s.length := by
  match s with
  | [] | [_] | _ :: _ :: _ => rfl

omit [DbUtil K] in
/-- **A flush at a level** gives the level below its view, and every other level keeps the one it had. -/
theorem view_flush_level [LawfulSerial V] (hinj : Function.Injective (genDbKey (K := K) p)) {i j : ℕ}
    {s : CacheStack K V} (hi : i < s.length) (hj : j ≤ s.length) :
    view (flush acc p (s.drop i)).1 p ((s.take i ++ (flush acc p (s.drop i)).2).drop j) =
      view acc p (s.drop (if j = i + 1 then i else j)) := by
  obtain ⟨c, bs, hdrop, hbs⟩ := exists_drop_eq_cons hi
  have htake : (s.take i).length = i := by
    rw [List.length_take]
    omega
  rcases Nat.lt_or_ge i j with hij | hij
  · obtain ⟨k, rfl⟩ : ∃ k, j = i + (k + 1) := ⟨j - i - 1, by omega⟩
    rw [hdrop, List.drop_append, List.drop_of_length_le (l := s.take i) (by omega), List.nil_append,
      htake, show i + (k + 1) - i = k + 1 by omega]
    cases k with
    | zero =>
      rw [if_pos rfl, hdrop]
      exact view_flush_base acc p hinj c bs
    | succ k =>
      rw [if_neg (by omega)]
      cases bs with
      | nil =>
        have hlen := congrArg List.length hdrop
        rw [List.length_drop, List.length_singleton] at hlen
        omega
      | cons b bs =>
        have hk : s.drop (i + (k + 1 + 1)) = bs.drop k := by
          rw [← List.drop_drop, hdrop]
          rfl
        rw [hk]
        rfl
  · rw [if_neg (by omega), List.drop_append_of_le_length (by omega), drop_eq_append hi.le hij, hdrop]
    exact view_append_congr _ p _ (view_flush acc p hinj c bs)

omit [DbUtil K] in
/-- **A flush among those of other caches**, which leave the records of the prefix. -/
theorem view_flush_among [LawfulSerial V] (hinj : Function.Injective (genDbKey (K := K) p))
    {acc acc' acc'' : CDBAccess} (hbefore : SameRecords p acc acc') {i j : ℕ} {s : CacheStack K V}
    (hafter : SameRecords p (flush acc' p (s.drop i)).1 acc'') (hi : i < s.length) (hj : j ≤ s.length) :
    view acc'' p ((s.take i ++ (flush acc' p (s.drop i)).2).drop j) =
      view acc p (s.drop (if j = i + 1 then i else j)) := by
  rw [view_of_getData _ p (hafter.getData K V), view_flush_level acc' p hinj hi hj,
    view_of_getData acc p (hbefore.getData K V)]

end CacheStack

end Inery
