import IneryPersistence.Iterator.Matching
import IneryPersistence.Lib.Runs
import Mathlib.Data.List.TakeWhile

/-!
# What the moves of a prefix iterator return

A `CDBPrefixIterator` overrides `IsValid`, which asks for the prefix too. Its moves return what the iterator under it
returns, which asks for a live key only.

* `PrefixMove`, `PrefixMove.apply`: the moves, and what they return;
* `PrefixWalk`, `step`: where a sequence of moves has gone;
* `Tells`: the result of a move is `IsValid` afterwards; `LandsOnPrefix`: what the move goes to has the prefix;
* `at_step`, `tells_iff`: one move; **`prefix_moves_tell_iff`**: all sequences of moves, and the two loops;
* `LeastHasPrefix`, `landsOnPrefix_iff_of_sameOrder`, `allSteps_landsOnPrefix_iff`: the condition on the view, for
  keys that are ordered like their serializations.
-/

namespace Inery

open KV

/-- The functions that move a `CDBPrefixIterator`. -/
inductive PrefixMove (K : Type)
  | first
  | seek (pKey : Option K)
  | seekUpper (pKey : Option K)
  | next

section Model

variable {K E V : Type} [DbUtil K] (m : PrefixMatcher K E) (prefixElement : E) (spItImpl : CDBBaseIterator K V)

/-- A move of the iterator. -/
def PrefixMove.moveTo (move : PrefixMove K) (st : spItImpl.State) : Option spItImpl.State :=
  let it := prefixIterator m prefixElement spItImpl
  match move with
  | first => it.first st
  | seek pKey => it.seek pKey st
  | seekUpper pKey => it.seekUpper pKey st
  | next => it.next st

/-- What a move returns, and where it goes: it returns whether `sp_it_Impl` is valid. -/
def PrefixMove.apply (move : PrefixMove K) (st : spItImpl.State) : Option (Bool × spItImpl.State) :=
  (move.moveTo m prefixElement spItImpl st).map fun st => ((spItImpl.cur st).isSome, st)

/-- `IsValid`. -/
def prefixIsValid (st : spItImpl.State) : Bool := ((prefixIterator m prefixElement spItImpl).cur st).isSome

/-- `for (ok = it.First(); ok; ok = it.Next())`, from what a move returned on. -/
def visitedByResult : ℕ → Bool × spItImpl.State → Option (List (K × V))
  | 0, _ => none
  | _ + 1, (false, _) => some []
  | fuel + 1, (true, st) => (spItImpl.cur st).bind fun e =>
      (PrefixMove.next.apply m prefixElement spItImpl st).bind fun r => (visitedByResult fuel r).map (e :: ·)

/-- The loop that is driven by the results. -/
def walkByResult (st : spItImpl.State) : Option (List (K × V)) :=
  (PrefixMove.first.apply m prefixElement spItImpl st).bind fun r =>
    visitedByResult m prefixElement spItImpl (spItImpl.remaining r.2 + 1) r

/-- The state of the iterator. `position` is not in the source: where the last start went, and how many times
`Next` was called since. -/
structure PrefixWalk (K S : Type) where
  st : S
  position : Option (Bound K × ℕ)

/-- Where `First` starts the iterator under it. -/
def firstStart : Start K := .seek (some (m.makeKeyByPrefix prefixElement))

/-- Where a move starts the iterator under it, unless it is `Next`. -/
def PrefixMove.start? : PrefixMove K → Option (Start K)
  | first | seek none | seekUpper none => some (firstStart m prefixElement)
  | seek (some key) => some (if isEmpty key then firstStart m prefixElement else .seek (some key))
  | seekUpper (some key) => some (if isEmpty key then firstStart m prefixElement else .seekUpper (some key))
  | next => none

/-- The position after a move. -/
def PrefixMove.goTo (position : Option (Bound K × ℕ)) (move : PrefixMove K) : Option (Bound K × ℕ) :=
  match move.start? m prefixElement with
  | some start => some (start.bound, 0)
  | none => position.map fun pos => (pos.1, pos.2 + 1)

theorem PrefixMove.moveTo_eq (move : PrefixMove K) (st : spItImpl.State) :
    move.moveTo m prefixElement spItImpl st =
      match move.start? m prefixElement with
      | some start => spItImpl.begin start st
      | none => spItImpl.next st := by
  cases move with
  | first | next => rfl
  | seek pKey =>
    cases pKey with
    | none => rfl
    | some key => cases he : isEmpty key <;> simp [PrefixMove.moveTo, PrefixMove.start?, prefixIterator,
        CDBBaseIterator.begin, firstStart, he]
  | seekUpper pKey =>
    cases pKey with
    | none => rfl
    | some key => cases he : isEmpty key <;> simp [PrefixMove.moveTo, PrefixMove.start?, prefixIterator,
        CDBBaseIterator.begin, firstStart, he]

variable {m prefixElement} in
theorem PrefixMove.eq_next_of_start? {move : PrefixMove K} (h : move.start? m prefixElement = none) :
    move = .next := by
  cases move with
  | next => rfl
  | first => cases h
  | seek pKey | seekUpper pKey => cases pKey <;> cases h

namespace PrefixWalk

/-- A new iterator. -/
def start : PrefixWalk K spItImpl.State := ⟨spItImpl.init, none⟩

def step (w : PrefixWalk K spItImpl.State) (move : PrefixMove K) : Option (PrefixWalk K spItImpl.State) :=
  (move.apply m prefixElement spItImpl w.st).map fun r => ⟨r.2, move.goTo m prefixElement w.position⟩

/-- `Next` is called only while `IsValid()` holds. -/
def Allowed (w : PrefixWalk K spItImpl.State) (move : PrefixMove K) : Prop :=
  move = .next → prefixIsValid m prefixElement spItImpl w.st = true

/-- **What a move returns is true exactly if `IsValid()` holds afterwards**, which is exactly if the iterator stands
on a live key with the prefix. -/
def Tells (view : K → Option V) (w : PrefixWalk K spItImpl.State) (move : PrefixMove K) : Prop :=
  ∀ result st, move.apply m prefixElement spItImpl w.st = some (result, st) →
    (result = true ↔ prefixIsValid m prefixElement spItImpl st = true) ∧
      (prefixIsValid m prefixElement spItImpl st = true ↔ ∃ key value, spItImpl.cur st = some (key, value) ∧
        view key = some value ∧ m.matchPrefix key prefixElement = true)

end PrefixWalk

end Model

namespace PrefixWalk

variable {K E V : Type} [LinearOrder K] [Serial K] [DbUtil K] [Serial V] [DbUtil V] {m : PrefixMatcher K E}
  {prefixElement : E} {acc : CDBAccess} {p : PrefixType} {s : CacheStack K V}

/-- The entry at a position: the one that the merge of the levels gives so many entries behind the bound. -/
def entryAt (acc : CDBAccess) (p : PrefixType) (s : CacheStack K V) : Option (Bound K × ℕ) → Option (K × V)
  | none => none
  | some (bound, n) => (stackStream acc p s bound)[n]?

variable (m prefixElement acc p s) in
/-- The entry that the move goes to, if there is one, has the prefix and is live. -/
def LandsOnPrefix (w : PrefixWalk K (CacheStack.create acc p s).State) (move : PrefixMove K) : Prop :=
  ∀ e ∈ entryAt acc p s (move.goTo m prefixElement w.position),
    m.matchPrefix e.1 prefixElement = true ∧ CacheStack.view acc p s e.1 = some e.2

/-- The iterator gives what the levels have from its position on. -/
def At (acc : CDBAccess) (p : PrefixType) (s : CacheStack K V) (w : PrefixWalk K (CacheStack.create acc p s).State) :
    Prop :=
  match w.position with
  | none => (CacheStack.create acc p s).cur w.st = none
  | some (bound, n) => (CacheStack.create acc p s).Enumerates w.st ((stackStream acc p s bound).drop n)

theorem At.cur {w : PrefixWalk K (CacheStack.create acc p s).State} (h : At acc p s w) :
    (CacheStack.create acc p s).cur w.st = entryAt acc p s w.position := by
  unfold At at h
  split at h
  · next hpos => rw [h, hpos, entryAt]
  · next bound n hpos => rw [h.cur, hpos, entryAt, List.head?_drop]

theorem at_start : At acc p s (start (CacheStack.create acc p s)) := by
  cases s <;> rfl

theorem At.prefixIsValid_eq {w : PrefixWalk K (CacheStack.create acc p s).State} (h : At acc p s w) :
    prefixIsValid m prefixElement (CacheStack.create acc p s) w.st =
      ((entryAt acc p s w.position).filter fun e => m.matchPrefix e.1 prefixElement).isSome := by
  rw [← h.cur]
  rfl

variable [LawfulSerial K] [LawfulSerial V]

/-- **One move** ends, and goes to the entry of its position. -/
theorem at_step (hp : p.InUse) (hdb : WellStored K V acc p) {w : PrefixWalk K (CacheStack.create acc p s).State}
    (hw : At acc p s w) {move : PrefixMove K} (hmove : Allowed m prefixElement _ w move) :
    ∃ st', move.moveTo m prefixElement (CacheStack.create acc p s) w.st = some st' ∧
      At acc p s ⟨st', move.goTo m prefixElement w.position⟩ := by
  rw [PrefixMove.moveTo_eq, PrefixMove.goTo]
  cases hstart : move.start? m prefixElement with
  | some start => exact CacheStack.create_yields hp hdb s start w.st
  | none =>
    -- `Next` stands on an entry, and the rest of the entries is behind it
    have hvalid := hmove (PrefixMove.eq_next_of_start? hstart)
    rw [hw.prefixIsValid_eq] at hvalid
    obtain ⟨e, he⟩ := Option.isSome_iff_exists.mp hvalid
    obtain ⟨st, position⟩ := w
    cases position with
    | none => cases he
    | some pos =>
      obtain ⟨bound, n⟩ := pos
      obtain ⟨hn, -⟩ := List.getElem?_eq_some_iff.mp (Option.filter_eq_some_iff.mp he).1
      have henum : (CacheStack.create acc p s).Enumerates st ((stackStream acc p s bound).drop n) := hw
      rw [List.drop_eq_getElem_cons hn] at henum
      obtain ⟨-, -, st', hnext, henum'⟩ := henum
      exact ⟨st', hnext, henum'⟩

/-- **The result of one move** is the truth exactly if the move lands on the prefix. -/
theorem tells_iff (hp : p.InUse) (hdb : WellStored K V acc p) {w : PrefixWalk K (CacheStack.create acc p s).State}
    (hw : At acc p s w) {move : PrefixMove K} (hmove : Allowed m prefixElement _ w move) :
    Tells m prefixElement _ (CacheStack.view acc p s) w move ↔ LandsOnPrefix m prefixElement acc p s w move := by
  obtain ⟨st', hst', hat⟩ := at_step hp hdb hw hmove
  have happly : move.apply m prefixElement (CacheStack.create acc p s) w.st =
      some (((CacheStack.create acc p s).cur st').isSome, st') := by
    rw [PrefixMove.apply, hst', Option.map_some]
  have hcur : (CacheStack.create acc p s).cur st' = entryAt acc p s (move.goTo m prefixElement w.position) := hat.cur
  have hvalid : prefixIsValid m prefixElement (CacheStack.create acc p s) st' = _ := hat.prefixIsValid_eq
  have htells : Tells m prefixElement _ (CacheStack.view acc p s) w move ↔
      (((CacheStack.create acc p s).cur st').isSome = true ↔
          prefixIsValid m prefixElement (CacheStack.create acc p s) st' = true) ∧
        (prefixIsValid m prefixElement (CacheStack.create acc p s) st' = true ↔
          ∃ key value, (CacheStack.create acc p s).cur st' = some (key, value) ∧
            CacheStack.view acc p s key = some value ∧ m.matchPrefix key prefixElement = true) := by
    refine ⟨fun h => h _ st' happly, fun h result st hst => ?_⟩
    rw [happly] at hst
    obtain ⟨rfl, rfl⟩ := Prod.mk.inj (Option.some.inj hst)
    exact h
  rw [htells, hvalid, hcur, LandsOnPrefix]
  cases entryAt acc p s (move.goTo m prefixElement w.position) with
  | none => simp
  | some e =>
    obtain ⟨key, value⟩ := e
    cases hmatch : m.matchPrefix key prefixElement with
    | false => simp [Option.filter, hmatch]
    | true => simp [Option.filter, hmatch]

variable (m prefixElement acc p s) in
/-- The keys that a move looks for the least live one of: those from where it starts, or behind the current key. -/
def target (w : PrefixWalk K (CacheStack.create acc p s).State) (move : PrefixMove K) : Option (Bound K) :=
  match move.start? m prefixElement with
  | some start => some start.bound
  | none => ((CacheStack.create acc p s).cur w.st).map fun e => .gt e.1

variable (m prefixElement acc p s) in
/-- The least live key that the move looks for, if there is one, has the prefix. -/
def LeastHasPrefix (w : PrefixWalk K (CacheStack.create acc p s).State) (move : PrefixMove K) : Prop :=
  ∀ bound ∈ target m prefixElement acc p s w move, ∀ key,
    IsLeast {key | CacheStack.view acc p s key ≠ none ∧ bound.Mem key} key → m.matchPrefix key prefixElement = true

omit [DbUtil K] in
theorem keys_stackStream (hp : p.InUse) (hord : SameOrder K) (hdb : WellStored K V acc p) (hs : s ≠ [])
    (bound : Bound K) : {key | ∃ value, (key, value) ∈ stackStream acc p s bound} =
      {key | CacheStack.view acc p s key ≠ none ∧ bound.Mem key} := by
  obtain ⟨c, base, rfl⟩ := List.exists_cons_of_ne_nil hs
  ext key
  simp only [mem_stackStream hp hord hdb, exists_and_right, Option.ne_none_iff_exists']

/-- **What a move goes to**, for keys that are ordered like their serializations: the least live key that it looks
for. -/
theorem exists_entryAt_iff (hp : p.InUse) (hord : SameOrder K) (hdb : WellStored K V acc p) (hs : s ≠ [])
    {w : PrefixWalk K (CacheStack.create acc p s).State} (hw : At acc p s w) {move : PrefixMove K}
    (hmove : Allowed m prefixElement _ w move) (key : K) :
    (∃ value, entryAt acc p s (move.goTo m prefixElement w.position) = some (key, value)) ↔
      ∃ bound, target m prefixElement acc p s w move = some bound ∧
        IsLeast {key | CacheStack.view acc p s key ≠ none ∧ bound.Mem key} key := by
  have hkeys := keys_stackStream hp hord hdb hs
  have hasc := fun bound => (live_lookup_stackStream hp hord hdb bound s).1
  rw [PrefixMove.goTo, target]
  cases hstart : move.start? m prefixElement with
  | some start =>
    have hfirst := (hasc start.bound).exists_getElem?_zero_iff key
    rw [hkeys] at hfirst
    exact hfirst.trans ⟨fun h => ⟨start.bound, rfl, h⟩, fun ⟨_, heq, h⟩ => Option.some.inj heq ▸ h⟩
  | none =>
    have hvalid := hmove (PrefixMove.eq_next_of_start? hstart)
    rw [hw.prefixIsValid_eq] at hvalid
    obtain ⟨e, he⟩ := Option.isSome_iff_exists.mp hvalid
    have he := (Option.filter_eq_some_iff.mp he).1
    rw [hw.cur, he]
    obtain ⟨st, position⟩ := w
    cases position with
    | none => cases he
    | some pos =>
      obtain ⟨bound, n⟩ := pos
      have hmem : bound.Mem e.1 := by
        have hlive : e.1 ∈ {key | ∃ value, (key, value) ∈ stackStream acc p s bound} :=
          ⟨e.2, List.mem_of_getElem? he⟩
        rw [hkeys] at hlive
        exact hlive.2
      have hbehind : {key | (∃ value, (key, value) ∈ stackStream acc p s bound) ∧ e.1 < key} =
          {key | CacheStack.view acc p s key ≠ none ∧ (Bound.gt e.1).Mem key} := by
        ext key
        have hkey := Set.ext_iff.mp (hkeys bound) key
        exact ⟨fun h => ⟨(hkey.mp h.1).1, h.2⟩, fun h => ⟨hkey.mpr ⟨h.1, hmem.mono (le_of_lt h.2)⟩, h.2⟩⟩
      have hnext := (hasc bound).exists_getElem?_succ_iff he key
      rw [hbehind] at hnext
      refine hnext.trans ⟨fun h => ⟨.gt e.1, rfl, h⟩, fun ⟨_, heq, h⟩ => ?_⟩
      obtain rfl : Bound.gt e.1 = _ := Option.some.inj heq
      exact h

/-- Then a move lands on the prefix if this key has it. -/
theorem landsOnPrefix_iff_of_sameOrder (hp : p.InUse) (hord : SameOrder K) (hdb : WellStored K V acc p) (hs : s ≠ [])
    {w : PrefixWalk K (CacheStack.create acc p s).State} (hw : At acc p s w) {move : PrefixMove K}
    (hmove : Allowed m prefixElement _ w move) :
    LandsOnPrefix m prefixElement acc p s w move ↔ LeastHasPrefix m prefixElement acc p s w move := by
  have hentry := exists_entryAt_iff hp hord hdb hs hw hmove
  constructor
  · intro h bound hbound key hkey
    obtain ⟨value, he⟩ := (hentry key).mpr ⟨bound, hbound, hkey⟩
    exact (h _ he).1
  · rintro h ⟨key, value⟩ he
    obtain ⟨bound, hbound, hkey⟩ := (hentry key).mp ⟨value, he⟩
    refine ⟨h bound hbound key hkey, ?_⟩
    obtain ⟨c, base, rfl⟩ := List.exists_cons_of_ne_nil hs
    generalize move.goTo m prefixElement w.position = position at he
    cases position with
    | none => cases he
    | some pos => exact ((mem_stackStream hp hord hdb pos.1 c base).mp (List.mem_of_getElem? he)).1

variable (m prefixElement) in
theorem at_preserved (hp : p.InUse) (hdb : WellStored K V acc p)
    {w w' : PrefixWalk K (CacheStack.create acc p s).State}
    {move : PrefixMove K} (hw : At acc p s w) (hmove : Allowed m prefixElement _ w move)
    (h : step m prefixElement _ w move = some w') : At acc p s w' := by
  obtain ⟨st', hst', hat⟩ := at_step hp hdb hw hmove
  rw [step, PrefixMove.apply, hst'] at h
  obtain rfl := Option.some.inj h
  exact hat

theorem allSteps_landsOnPrefix_iff (hp : p.InUse) (hord : SameOrder K) (hdb : WellStored K V acc p) (hs : s ≠ [])
    {moves : List (PrefixMove K)}
    (hmoves : AllSteps (step m prefixElement _) (Allowed m prefixElement _)
      (start (CacheStack.create acc p s)) moves) :
    AllSteps (step m prefixElement _) (LandsOnPrefix m prefixElement acc p s) (start _) moves ↔
      AllSteps (step m prefixElement _) (LeastHasPrefix m prefixElement acc p s) (start _) moves :=
  allSteps_iff_of_invariant _ (fun _ _ _ hw hmove h => at_preserved m prefixElement hp hdb hw hmove h)
    (fun _ _ hw hmove => landsOnPrefix_iff_of_sameOrder hp hord hdb hs hw hmove) at_start hmoves

/-! ## The two loops -/

omit [LinearOrder K] [Serial K] [Serial V] [DbUtil V] [LawfulSerial K] [LawfulSerial V] in
theorem visitedByResult_eq {spItImpl : CDBBaseIterator K V} {st : spItImpl.State} {l : List (K × V)}
    (h : spItImpl.Enumerates st l) {fuel : ℕ} (hfuel : l.length < fuel) :
    visitedByResult m prefixElement spItImpl fuel ((spItImpl.cur st).isSome, st) = some l := by
  induction l generalizing st fuel with
  | nil =>
    obtain ⟨fuel, rfl⟩ := Nat.exists_eq_add_of_lt hfuel
    rw [h.cur]
    rfl
  | cons e l ih =>
    obtain ⟨hcur, -, st', hnext, h'⟩ := h
    obtain ⟨fuel, rfl⟩ := Nat.exists_eq_add_of_lt hfuel
    have hlt : l.length < l.length + 1 + fuel := by omega
    have happly : PrefixMove.next.apply m prefixElement spItImpl st = some ((spItImpl.cur st').isSome, st') :=
      congrArg (Option.map _) hnext
    have hrest := ih h' hlt
    rw [hcur, List.length_cons]
    show ((spItImpl.cur st).bind _ : Option (List (K × V))) = _
    rw [hcur, Option.bind_some, happly, Option.bind_some]
    exact congrArg (Option.map _) hrest

/-- **The loop that is driven by the results** goes on up to the last live key. -/
theorem walkByResult_eq (hp : p.InUse) (hdb : WellStored K V acc p) (st : (CacheStack.create acc p s).State) :
    walkByResult m prefixElement (CacheStack.create acc p s) st =
      some (stackStream acc p s (firstStart m prefixElement).bound) := by
  obtain ⟨st', hst', henum⟩ := CacheStack.create_yields hp hdb s (firstStart m prefixElement) st
  have happly : PrefixMove.first.apply m prefixElement (CacheStack.create acc p s) st =
      some (((CacheStack.create acc p s).cur st').isSome, st') := congrArg (Option.map _) hst'
  rw [walkByResult, happly, Option.bind_some]
  exact visitedByResult_eq henum (Nat.lt_succ_of_le henum.length_le)

/-- **The results of the moves are the truth** exactly when no move lands on a live key without the prefix, and the
two loops visit the same keys exactly when there is none from the start of the loop on. -/
theorem prefix_moves_tell_iff (m : PrefixMatcher K E) (prefixElement : E) (hp : p.InUse) (hdb : WellStored K V acc p)
    (s : CacheStack K V) :
    let it := CacheStack.create acc p s
    (∀ moves, AllSteps (step m prefixElement it) (Allowed m prefixElement it) (start it) moves →
      (AllSteps (step m prefixElement it) (Tells m prefixElement it (CacheStack.view acc p s)) (start it) moves ↔
        AllSteps (step m prefixElement it) (LandsOnPrefix m prefixElement acc p s) (start it) moves)) ∧
    ∀ st, walkByResult m prefixElement it st = (prefixIterator m prefixElement it).walk .first st ↔
      ∀ e ∈ stackStream acc p s (firstStart m prefixElement).bound, m.matchPrefix e.1 prefixElement = true := by
  intro it
  constructor
  · intro moves hmoves
    exact allSteps_iff_of_invariant _ (fun _ _ _ hw hmove h => at_preserved m prefixElement hp hdb hw hmove h)
      (fun _ _ hw hmove => tells_iff hp hdb hw hmove) at_start hmoves
  · intro st
    rw [walkByResult_eq hp hdb, walk_prefixIterator m hp hdb, Option.some_inj, eq_comm]
    exact List.takeWhile_eq_self_iff

end PrefixWalk

/-- One live key, with the prefix. -/
def oneElement : CacheStack (Byte ×ₗ Byte) Byte := [⟨(∅ : SortedMap _ _).insert (toLex (1, 1)) 5, false, 0⟩]

theorem stackStream_oneElement : stackStream ⟨.account, ∅⟩ .keyidAccount oneElement
    (firstStart (commonPrefixMatcher Byte Byte) 1).bound = [(toLex (1, 1), 5)] := by
  show liveEntries (overlay [((toLex (1, 1) : Byte ×ₗ Byte), (5 : Byte))] []) = _
  rw [overlay_nil_right]
  rfl

open PrefixWalk in
theorem prefix_moves_tell_iff_one :
    let it := CacheStack.create ⟨.account, ∅⟩ .keyidAccount oneElement
    let m := commonPrefixMatcher Byte Byte
    AllSteps (step m 1 it) (Tells m 1 it (CacheStack.view ⟨.account, ∅⟩ .keyidAccount oneElement)) (start it)
        [.first, .next] ∧
      walkByResult m 1 it it.init = (prefixIterator m 1 it).walk .first it.init := by
  intro it m
  have hdb : WellStored (Byte ×ₗ Byte) Byte ⟨.account, ∅⟩ .keyidAccount := fun _ hr => nomatch hr
  have hiff := prefix_moves_tell_iff m 1 (by decide) hdb oneElement
  refine ⟨(hiff.1 [.first, .next] ⟨nofun, fun w₁ h₁ => ?_⟩).mpr ⟨fun e he => ?_, fun w₁ h₁ => ?_⟩,
    (hiff.2 it.init).mpr fun e he => ?_⟩
  · obtain rfl := Option.some.inj h₁
    exact ⟨fun _ => by decide, fun _ _ => trivial⟩
  · have he' : e ∈ (stackStream ⟨.account, ∅⟩ .keyidAccount oneElement (firstStart m 1).bound)[0]? := he
    rw [stackStream_oneElement] at he'
    obtain rfl := Option.some.inj he'
    decide
  · obtain rfl := Option.some.inj h₁
    refine ⟨fun e he => ?_, fun _ _ => trivial⟩
    have he' : e ∈ (stackStream ⟨.account, ∅⟩ .keyidAccount oneElement (firstStart m 1).bound)[1]? := he
    rw [stackStream_oneElement] at he'
    cases he'
  · rw [stackStream_oneElement] at he
    obtain rfl := List.mem_singleton.mp he
    decide

/-- One live key with the prefix, and one behind it without the prefix. -/
def twoElements : CacheStack (Byte ×ₗ Byte) Byte :=
  [⟨((∅ : SortedMap _ _).insert (toLex (1, 1)) 5).insert (toLex (2, 1)) 6, false, 0⟩]

open PrefixWalk in
theorem next_returns_true :
    let it := CacheStack.create ⟨.account, ∅⟩ .keyidAccount twoElements
    let m := commonPrefixMatcher Byte Byte
    AllSteps (step m 1 it) (Allowed m 1 it) (start it) [.first, .next] ∧
      ¬AllSteps (step m 1 it) (Tells m 1 it (CacheStack.view ⟨.account, ∅⟩ .keyidAccount twoElements)) (start it)
        [.first, .next] ∧
      walkByResult m 1 it it.init ≠ (prefixIterator m 1 it).walk .first it.init := by
  refine ⟨⟨nofun, fun w₁ h₁ => ?_⟩, fun h => ?_, ?_⟩
  · obtain rfl := Option.some.inj h₁
    exact ⟨fun _ => by decide, fun _ _ => trivial⟩
  · have hnext := ((h.2 _ rfl).1 true _ rfl).1.mp rfl
    exact absurd hnext (by decide)
  · decide

end Inery
