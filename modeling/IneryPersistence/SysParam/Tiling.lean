import IneryPersistence.SysParam.Interest

/-!
# The intervals of the interest parameters

* `Tiles`: intervals that follow each other, from one height to another;
* `tiles_addChanges`, `tiles_changesOf`: the second loop ends every interval where the next one begins;
* **`getCdpInterestParamChanges_tiles`**: the intervals of a query, and the parameters in them.
-/

namespace Inery

open KV

namespace InterestParams

/-- Intervals that are not empty, each of which begins after the end of the one before, from `b` to `e`. -/
structure Tiles (b e : ℤ) (changes : List IneryCdpInterestParamChange) : Prop where
  first : changes.head?.map IneryCdpInterestParamChange.beginHeight = some b
  last : changes.getLast?.map IneryCdpInterestParamChange.endHeight = some e
  consecutive : changes.IsChain fun change next => next.beginHeight = change.endHeight + 1
  begin_le_end : ∀ change ∈ changes, change.beginHeight ≤ change.endHeight

theorem Tiles.ne_nil {b e : ℤ} {changes : List IneryCdpInterestParamChange} (h : Tiles b e changes) :
    changes ≠ [] := by
  rintro rfl
  exact Option.some_ne_none b h.first.symm

theorem tiles_singleton (change : IneryCdpInterestParamChange)
    (h : change.beginHeight ≤ change.endHeight) : Tiles change.beginHeight change.endHeight [change] where
  first := rfl
  last := rfl
  consecutive := .singleton change
  begin_le_end c hc := by rwa [List.mem_singleton.mp hc]

theorem Tiles.cons (change : IneryCdpInterestParamChange) {e : ℤ}
    {changes : List IneryCdpInterestParamChange} (h : Tiles (change.endHeight + 1) e changes)
    (hle : change.beginHeight ≤ change.endHeight) : Tiles change.beginHeight e (change :: changes) := by
  cases changes with
  | nil => exact absurd rfl h.ne_nil
  | cons next changes =>
    refine ⟨rfl, ?_, List.isChain_cons_cons.mpr ⟨Option.some.inj h.first, h.consecutive⟩, ?_⟩
    · rw [List.getLast?_cons_cons]
      exact h.last
    · rw [List.forall_mem_cons]
      exact ⟨hle, h.begin_le_end⟩

/-- **The intervals from one change on** tile the heights up to the end. -/
theorem tiles_addChanges {endHeight : ℤ} {rest : List (ℤ × IneryCdpInterestParams)}
    (back : IneryCdpInterestParamChange) (hback : back.beginHeight ≤ endHeight)
    (hrest : ∀ e ∈ rest, back.beginHeight < e.1) (hasc : Ascending rest) :
    Tiles back.beginHeight endHeight (addChanges endHeight back rest) := by
  induction rest generalizing back with
  | nil => exact tiles_singleton { back with endHeight := endHeight } hback
  | cons e rest ih =>
    obtain ⟨height, item⟩ := e
    have hhead : back.beginHeight < height := hrest _ List.mem_cons_self
    rw [addChanges]
    split_ifs with hend
    · exact tiles_singleton { back with endHeight := endHeight } hback
    · have htail := ih ⟨height, 0, item.paramA, item.paramB⟩ (not_lt.mp hend) (fun e he => hasc.head_lt e he)
        hasc.tail
      refine Tiles.cons { back with endHeight := height - 1 } ?_ (Int.le_sub_one_of_lt hhead)
      rwa [Int.sub_add_cancel]

theorem tiles_changesOf (tables : SysParamTables) (m : IneryCdpInterestParamChangeMap) {b e : ℤ}
    (hbe : b ≤ e) : Tiles b e (changesOf tables m b e) := by
  have hrest : ∀ a ∈ m.entries.dropWhile (fun a => decide (a.1 ≤ b)), b < a.1 :=
    fun a ha => m.ascending.lt_of_mem_dropWhile ha
  have hasc : Ascending (m.entries.dropWhile fun a => decide (a.1 ≤ b)) :=
    List.Pairwise.sublist (List.dropWhile_sublist _) m.ascending
  unfold changesOf
  dsimp only
  split
  · exact tiles_addChanges ⟨b, 0, _, _⟩ hbe hrest hasc
  · exact tiles_addChanges ⟨b, 0, _, _⟩ hbe hrest hasc

section Query

variable [CompactSize] [DbUtil IneryCdpCoinPair] [Serial IneryCdpInterestParamChangeMap]
  (tables : SysParamTables) (acc : CDBAccess)

/-- **The history is a partition.** The intervals of a query tile its heights; every height is in one of
them, and those that it is in have the parameters of the latest change up to it, or the defaults. -/
theorem getCdpInterestParamChanges_tiles {st : InterestParams} (hst : st.Built)
    (coinPair : IneryCdpCoinPair) {b e : ℤ} (hbe : b ≤ e) :
    Tiles b e (st.getCdpInterestParamChanges tables acc coinPair b e).1 ∧
      ∀ x, b ≤ x → x ≤ e →
        (∃ change ∈ (st.getCdpInterestParamChanges tables acc coinPair b e).1,
          change.beginHeight ≤ x ∧ x ≤ change.endHeight) ∧
        ∀ change ∈ (st.getCdpInterestParamChanges tables acc coinPair b e).1,
          change.beginHeight ≤ x → x ≤ change.endHeight →
            (∀ a ∈ (st.historyOf acc coinPair).entries, a.1 ≤ x →
              (∀ a' ∈ (st.historyOf acc coinPair).entries, a'.1 ≤ x → a'.1 ≤ a.1) →
                params change = a.2) ∧
            ((∀ a ∈ (st.historyOf acc coinPair).entries, x < a.1) → params change = defaults tables) := by
  rw [getCdpInterestParamChanges_eq tables acc hst]
  refine ⟨tiles_changesOf tables _ hbe, fun x hb hx => ?_⟩
  obtain ⟨hcover, hvalue⟩ := changesOf_spec tables (st.historyOf acc coinPair) hb hx
  refine ⟨hcover, fun change hmem hbegin hend => ⟨fun a ha hax hlatest => ?_, fun hnone => ?_⟩⟩
  · rw [hvalue change hmem hbegin hend]
    exact valueAt_of_latest (st.historyOf acc coinPair).ascending ha hax hlatest _
  · rw [hvalue change hmem hbegin hend]
    exact valueAt_of_lt hnone _

end Query

end InterestParams

namespace BigEndianKeys

/-- Two changes in one cache: at height 3 and at height 6. -/
def twoChanges : InterestParams where
  cdpParamCache := [⟨∅, false, 0⟩]
  cdpInterestParamChangesCache := [⟨SortedMap.insert ∅ ⟨[1], [2]⟩
    (SortedMap.insert (SortedMap.insert ∅ 3 ⟨7, 8⟩) 6 ⟨9, 10⟩), false, 0⟩]
  pDbOpLogMap := none

example : (twoChanges.getCdpInterestParamChanges smallTables ⟨.sysparam, ∅⟩ ⟨[1], [2]⟩ 2 6).1 =
    [⟨2, 2, 100, 5⟩, ⟨3, 5, 7, 8⟩, ⟨6, 6, 9, 10⟩] := by decide +kernel

theorem getCdpInterestParamChanges_tiles_two : InterestParams.Tiles 2 6
    (twoChanges.getCdpInterestParamChanges smallTables ⟨.sysparam, ∅⟩ ⟨[1], [2]⟩ 2 6).1 :=
  (InterestParams.getCdpInterestParamChanges_tiles smallTables ⟨.sysparam, ∅⟩
    ⟨List.cons_ne_nil _ _, List.cons_ne_nil _ _⟩ ⟨[1], [2]⟩ (by decide)).1

end BigEndianKeys

end Inery
