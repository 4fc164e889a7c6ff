import IneryPersistence.Cdp.Keys
import IneryPersistence.Iterator.Leftover

/-!
# The index of the votes

`voteRegIdCache` keeps an entry for every account that has votes, under `MAX - votes` and the raw account id. The
votes of an account are moved: the entry of the old number is erased, and one for the new number is set.

* `VoteKey`, `delegateVoteKey`: the keys, with the votes from many to few;
* `eraseDelegateVotes`, `setDelegateVotes`, `VoteOp.step`: the functions at each level of a stack;
* `VoteCounts`, `VoteOp.count`: the votes that the moves gave the accounts at each level;
* `VoteIndex`, `VoteIndex.move`: the entries are those of the counted votes;
* `move_counted`, `flush_counted`, **`run_counted`**: at every level, after every run.
-/

namespace Inery

open KV

/-- `MAX - votes` and the raw data of an account id: the key of `CVoteRegIdCache`. -/
abbrev VoteKey := CFixedUInt64 ×ₗ Bytes

/-- `ULONG_MAX`. -/
def ulongMax : UInt64 := 0xFFFFFFFFFFFFFFFF

/-- `DelegateVoteToKey`. -/
def delegateVoteToKey (votes : UInt64) : CFixedUInt64 := ⟨ulongMax - votes⟩

/-- `DelegateVoteFromKey`. -/
def delegateVoteFromKey (voteKey : CFixedUInt64) : UInt64 := ulongMax - voteKey.value

/-- What is used of an account id: `IsEmpty`, `GetRegIdRaw` and the constructor from raw data. -/
class RegIdRaw where
  isEmptyRegId : IneryRegID → Bool
  getRegIdRaw : IneryRegID → Bytes
  ofRegIdRaw : Bytes → IneryRegID

export RegIdRaw (isEmptyRegId getRegIdRaw ofRegIdRaw)

/-- Raw data is read back, and has one length. -/
class LawfulRegIdRaw [RegIdRaw] : Prop where
  ofRegIdRaw_getRegIdRaw : ∀ regId : IneryRegID, ofRegIdRaw (getRegIdRaw regId) = regId
  length_getRegIdRaw : ∀ regId regId' : IneryRegID, (getRegIdRaw regId).length = (getRegIdRaw regId').length

/-- The votes of the accounts at each level, as far as they have any. -/
abbrev VoteCounts := ℕ → IneryRegID → Option UInt64

/-- What happens at one level. -/
inductive VoteOp
  | move (regId : IneryRegID) (old new : UInt64)
  | flush

section Model

variable [RegIdRaw]

/-- The key that `SetDelegateVotes` and `EraseDelegateVotes` make. -/
def delegateVoteKey (votes : UInt64) (regId : IneryRegID) : VoteKey :=
  toLex (delegateVoteToKey votes, getRegIdRaw regId)

/-- The votes after an operation. A move is seen from its level up, and a flush gives its votes to the level
below. -/
def VoteOp.count (counts : VoteCounts) : LevelOp VoteOp → VoteCounts
  | .cache i (.move regId _ new) =>
    if isEmptyRegId regId then counts
    else fun j => if j ≤ i then Function.update (counts j) regId (some new) else counts j
  | .cache i .flush => fun j => counts (if j = i + 1 then i else j)
  | .database _ => counts

variable [CompactSize] [Serial CFixedUInt64] [DbUtil CFixedUInt64]

/-- `SetDelegateVotes` at a level: an empty account id is ignored. -/
def setDelegateVotes (st : CacheLevels VoteKey Byte) (i : ℕ) (regId : IneryRegID) (votes : UInt64) :
    Bool × CacheLevels VoteKey Byte :=
  if isEmptyRegId regId then (true, st)
  else
    let r := CacheStack.setData st.acc .vote (st.log i) (st.caches.drop i) (delegateVoteKey votes regId) 1
    (r.2.1, ⟨st.acc, st.caches.take i ++ r.1, Function.update st.log i r.2.2⟩)

/-- `EraseDelegateVotes` at a level: an empty account id is ignored. -/
def eraseDelegateVotes (st : CacheLevels VoteKey Byte) (i : ℕ) (regId : IneryRegID) (votes : UInt64) :
    Bool × CacheLevels VoteKey Byte :=
  if isEmptyRegId regId then (true, st)
  else
    let r := CacheStack.eraseData st.acc .vote (st.log i) (st.caches.drop i) (delegateVoteKey votes regId)
    (r.2.1, ⟨st.acc, st.caches.take i ++ r.1, Function.update st.log i r.2.2⟩)

namespace VoteOp

/-- A move or a flush at a level, or what other caches do to the database. -/
def step (st : CacheLevels VoteKey Byte) : LevelOp VoteOp → Option (CacheLevels VoteKey Byte)
  | .cache i (.move regId old new) =>
    if i < st.caches.length then some (setDelegateVotes (eraseDelegateVotes st i regId old).2 i regId new).2
    else none
  | .cache i .flush => CacheLevels.step .vote st (.cache i .flush)
  | .database acc => CacheLevels.step .vote st (.database acc)

/-- The operation on the caches, and on the votes that are counted next to them. -/
def stepCounted (st : CacheLevels VoteKey Byte × VoteCounts) (op : LevelOp VoteOp) :
    Option (CacheLevels VoteKey Byte × VoteCounts) :=
  (step st.1 op).map fun st' => (st', count st.2 op)

/-- A move is made at a level that there is, from the current votes of the account, and no cache above has an entry
of it; other caches leave the records of the votes. -/
def Allowed (st : CacheLevels VoteKey Byte × VoteCounts) : LevelOp VoteOp → Prop
  | .cache i (.move regId old _) => i < st.1.caches.length ∧ (isEmptyRegId regId = false →
      old = (st.2 i regId).getD 0 ∧
        ∀ c ∈ st.1.caches.take i, ∀ votes, c.mapData.find? (delegateVoteKey votes regId) = none)
  | .cache i .flush => i < st.1.caches.length
  | .database acc => SameRecords .vote st.1.acc acc

end VoteOp

end Model

/-! ## The keys -/

theorem toNat_ulongMax_sub (votes : UInt64) : (ulongMax - votes).toNat = 2 ^ 64 - 1 - votes.toNat := by
  have hlt := votes.toNat_lt
  have hmax : ulongMax.toNat = 2 ^ 64 - 1 := rfl
  rw [UInt64.toNat_sub, hmax]
  omega

theorem delegateVoteFromKey_toKey (votes : UInt64) : delegateVoteFromKey (delegateVoteToKey votes) = votes := by
  have hlt := votes.toNat_lt
  rw [← UInt64.toNat_inj, delegateVoteFromKey, delegateVoteToKey, toNat_ulongMax_sub, toNat_ulongMax_sub]
  omega

/-- **More votes come first.** -/
theorem delegateVoteToKey_lt_iff (votes votes' : UInt64) :
    delegateVoteToKey votes < delegateVoteToKey votes' ↔ votes' < votes := by
  have hlt := votes.toNat_lt
  have hlt' := votes'.toNat_lt
  change (ulongMax - votes).toNat < (ulongMax - votes').toNat ↔ _
  rw [toNat_ulongMax_sub, toNat_ulongMax_sub, UInt64.lt_iff_toNat_lt]
  omega

section Keys

variable [RegIdRaw] [LawfulRegIdRaw]

theorem getRegIdRaw_injective : Function.Injective getRegIdRaw :=
  Function.LeftInverse.injective (g := ofRegIdRaw) LawfulRegIdRaw.ofRegIdRaw_getRegIdRaw

/-- There are two account ids, so that none has raw data of length zero. -/
theorem getRegIdRaw_ne_nil (regId : IneryRegID) : getRegIdRaw regId ≠ [] := by
  intro hnil
  have hall : ∀ regId', getRegIdRaw regId' = [] := fun regId' => by
    rw [← List.length_eq_zero_iff, LawfulRegIdRaw.length_getRegIdRaw regId' regId, hnil, List.length_nil]
  have heq : (toLex (0, 0) : IneryRegID) = toLex (0, 1) :=
    getRegIdRaw_injective ((hall _).trans (hall _).symm)
  exact absurd (congrArg (fun regId => (ofLex regId).2) heq) (by decide)

theorem delegateVoteKey_inj {votes votes' : UInt64} {regId regId' : IneryRegID} :
    delegateVoteKey votes regId = delegateVoteKey votes' regId' ↔ votes = votes' ∧ regId = regId' := by
  constructor
  · intro h
    obtain ⟨hkey, hraw⟩ := Prod.mk.inj (toLex.injective h)
    have hvotes := congrArg delegateVoteFromKey hkey
    rw [delegateVoteFromKey_toKey, delegateVoteFromKey_toKey] at hvotes
    exact ⟨hvotes, getRegIdRaw_injective hraw⟩
  · rintro ⟨rfl, rfl⟩
    rfl

theorem isEmpty_delegateVoteKey [DbUtil CFixedUInt64] (votes : UInt64) (regId : IneryRegID) :
    isEmpty (delegateVoteKey votes regId) = false := by
  have hraw : isEmpty (getRegIdRaw regId) = false := by
    rw [← Bool.not_eq_true]
    exact fun h => getRegIdRaw_ne_nil regId (List.isEmpty_iff.mp h)
  change (isEmpty (delegateVoteToKey votes) && isEmpty (getRegIdRaw regId)) = false
  rw [hraw, Bool.and_false]

end Keys

/-! ## The entries -/

section Index

variable [RegIdRaw] {counted : IneryRegID → Option UInt64} {index : VoteKey → Option Byte}

/-- **The entries are those of the counted votes.** -/
def VoteIndex (counted : IneryRegID → Option UInt64) (index : VoteKey → Option Byte) : Prop :=
  ∀ key value, index key = some value ↔
    value = 1 ∧ ∃ regId votes, counted regId = some votes ∧ delegateVoteKey votes regId = key

theorem voteIndex_none : VoteIndex (fun _ => none) fun _ => none := fun _ _ => by simp

variable [LawfulRegIdRaw]

theorem VoteIndex.find (h : VoteIndex counted index) (votes : UInt64) (regId : IneryRegID) :
    index (delegateVoteKey votes regId) = some 1 ↔ counted regId = some votes := by
  rw [h, and_iff_right rfl]
  constructor
  · rintro ⟨regId', votes', hvotes, hkey⟩
    obtain ⟨rfl, rfl⟩ := delegateVoteKey_inj.mp hkey
    exact hvotes
  · exact fun hvotes => ⟨regId, votes, hvotes, rfl⟩

theorem VoteIndex.move (h : VoteIndex counted index) {regId : IneryRegID} {old new : UInt64}
    (hold : old = (counted regId).getD 0) {index' : VoteKey → Option Byte}
    (hnew : index' (delegateVoteKey new regId) = some 1)
    (herased : delegateVoteKey old regId ≠ delegateVoteKey new regId → index' (delegateVoteKey old regId) = none)
    (hrest : ∀ key, key ≠ delegateVoteKey old regId → key ≠ delegateVoteKey new regId → index' key = index key) :
    VoteIndex (Function.update counted regId (some new)) index' := by
  intro key value
  by_cases hkey : key = delegateVoteKey new regId
  · subst hkey
    rw [hnew, Option.some.injEq]
    refine ⟨fun hvalue => ⟨hvalue.symm, regId, new, Function.update_self _ _ _, rfl⟩, ?_⟩
    rintro ⟨rfl, -⟩
    rfl
  · constructor
    · intro hvalue
      have hne : key ≠ delegateVoteKey old regId := by
        rintro rfl
        rw [herased hkey] at hvalue
        exact absurd hvalue nofun
      rw [hrest key hne hkey] at hvalue
      obtain ⟨rfl, regId', votes, hvotes, rfl⟩ := (h key value).mp hvalue
      refine ⟨rfl, regId', votes, ?_, rfl⟩
      rw [Function.update_of_ne]
      · exact hvotes
      · rintro rfl
        rw [hvotes] at hold
        exact hne (by rw [hold]; rfl)
    · rintro ⟨rfl, regId', votes, hvotes, rfl⟩
      have hne : regId' ≠ regId := by
        rintro rfl
        rw [Function.update_self] at hvotes
        exact hkey (by rw [Option.some.inj hvotes])
      rw [Function.update_of_ne hne] at hvotes
      rw [hrest _ (fun heq => hne (delegateVoteKey_inj.mp heq).2) hkey]
      exact (h.find votes regId').mpr hvotes

end Index

/-! ## Runs -/

section Runs

variable [RegIdRaw] [CompactSize] [Serial CFixedUInt64] [DbUtil CFixedUInt64]

/-- At every level, the entries are those of the votes that are counted there. -/
structure Counted (n : ℕ) (st : CacheLevels VoteKey Byte × VoteCounts) : Prop where
  length : st.1.caches.length = n
  entries : Entries (fun key => ∃ votes regId, key = delegateVoteKey votes regId) .vote st.1
  index : ∀ j ≤ n, VoteIndex (st.2 j) (CacheStack.view st.1.acc .vote (st.1.caches.drop j))

/-- What a write at a level leaves. -/
structure WritesVote (i : ℕ) (key : VoteKey) (value : Option Byte) (st st' : CacheLevels VoteKey Byte) : Prop where
  acc : st'.acc = st.acc
  above : st'.caches.take i = st.caches.take i
  writes : CacheStack.Writes st.acc .vote i [(key, value)] st.caches st'.caches
  entries : Entries (fun key => ∃ votes regId, key = delegateVoteKey votes regId) .vote st'

section Writes

variable [LawfulRegIdRaw] [LawfulCompactSize] [StreamSerial CFixedUInt64] {st : CacheLevels VoteKey Byte}
  (hst : Entries (fun key => ∃ votes regId, key = delegateVoteKey votes regId) .vote st) {i : ℕ}
  (hi : i < st.caches.length) {regId : IneryRegID} (hne : isEmptyRegId regId = false) {votes : UInt64}
  (hclear : ∀ c ∈ st.caches.take i, c.mapData.find? (delegateVoteKey votes regId) = none)

include hst hi hne hclear

theorem setDelegateVotes_writes : (setDelegateVotes st i regId votes).1 = true ∧
    WritesVote i (delegateVoteKey votes regId) (some 1) st (setDelegateVotes st i regId votes).2 := by
  have hkey := isEmpty_delegateVoteKey votes regId
  obtain ⟨t, old, hset, -, hw⟩ := CacheStack.writes_setData st.acc .vote hkey hi
    (fun c hc key hin => List.mem_singleton.mp hin ▸ hclear c hc) (st.log i) (1 : Byte)
  obtain ⟨c, bs, hdrop, -⟩ := CacheStack.exists_drop_eq_cons hi
  have hstep : CacheLevels.step .vote st (.cache i (.setData (delegateVoteKey votes regId) 1)) =
      some (setDelegateVotes st i regId votes).2 := by
    rw [CacheLevels.step, setDelegateVotes, hne, hdrop]
    rfl
  have haccess : (CacheOp.setData (delegateVoteKey votes regId) (1 : Byte)).Accesses := trivial
  have hentries := entries_access hst haccess (fun key hsets => ⟨votes, regId, hsets.1.symm⟩) hstep
  rw [setDelegateVotes, hne, hset] at hentries ⊢
  refine ⟨rfl, rfl, ?_, hw, hentries⟩
  exact List.take_left' (by rw [List.length_take]; omega)

theorem eraseDelegateVotes_writes : (eraseDelegateVotes st i regId votes).1 = true ∧
    WritesVote i (delegateVoteKey votes regId) none st (eraseDelegateVotes st i regId votes).2 := by
  have hkey := isEmpty_delegateVoteKey votes regId
  obtain ⟨t, log, her, hw, -⟩ := CacheStack.writes_eraseData st.acc .vote hkey hi
    (fun c hc key hin => List.mem_singleton.mp hin ▸ hclear c hc) (st.log i)
  obtain ⟨c, bs, hdrop, -⟩ := CacheStack.exists_drop_eq_cons hi
  have hstep : CacheLevels.step .vote st (.cache i (.eraseData (delegateVoteKey votes regId))) =
      some (eraseDelegateVotes st i regId votes).2 := by
    rw [CacheLevels.step, eraseDelegateVotes, hne, hdrop]
    rfl
  have haccess : (CacheOp.eraseData (delegateVoteKey votes regId) : CacheOp VoteKey Byte).Accesses := trivial
  have hentries := entries_access hst haccess (fun key hsets => hsets.elim) hstep
  rw [eraseDelegateVotes, hne, her] at hentries ⊢
  refine ⟨rfl, rfl, ?_, hw, hentries⟩
  exact List.take_left' (by rw [List.length_take]; omega)

end Writes

variable {n : ℕ} {st : CacheLevels VoteKey Byte × VoteCounts} (h : Counted n st)
include h

section Move

variable [LawfulRegIdRaw]

omit [DbUtil CFixedUInt64] in
theorem counted_of_clear {i j : ℕ} (hi : i ≤ n) (hj : j ≤ i) {regId : IneryRegID}
    (hclear : ∀ c ∈ st.1.caches.take i, ∀ votes, c.mapData.find? (delegateVoteKey votes regId) = none) :
    st.2 j regId = st.2 i regId := by
  refine Option.ext fun votes => ?_
  rw [← (h.index j (hj.trans hi)).find, ← (h.index i hi).find,
    CacheStack.view_drop_of_clear st.1.acc .vote (h.length.symm ▸ hi) hj fun c hc => hclear c hc votes]

variable [LawfulCompactSize] [StreamSerial CFixedUInt64]

theorem move_counted {i : ℕ} {regId : IneryRegID} {old new : UInt64}
    (hop : VoteOp.Allowed st (.cache i (.move regId old new))) :
    ∃ st', VoteOp.stepCounted st (.cache i (.move regId old new)) = some st' ∧ Counted n st' := by
  obtain ⟨hi, hmove⟩ := hop
  refine ⟨_, by rw [VoteOp.stepCounted, VoteOp.step, if_pos hi]; rfl, ?_⟩
  cases hne : isEmptyRegId regId with
  | true =>
    simp only [eraseDelegateVotes, setDelegateVotes, VoteOp.count, hne]
    exact h
  | false =>
    obtain ⟨hold, hclear⟩ := hmove hne
    obtain ⟨-, hw⟩ := eraseDelegateVotes_writes h.entries hi hne fun c hc => hclear c hc old
    have hi' : i < (eraseDelegateVotes st.1 i regId old).2.caches.length := hw.writes.length.symm ▸ hi
    obtain ⟨-, hw'⟩ := setDelegateVotes_writes hw.entries hi' hne fun c hc =>
      hclear c (hw.above ▸ hc) new
    have hin : i < n := h.length ▸ hi
    refine ⟨(hw'.writes.length.trans hw.writes.length).trans h.length, hw'.entries, fun j hj => ?_⟩
    simp only [VoteOp.count, hne]
    rw [hw'.acc, hw.acc]
    rcases Nat.lt_or_ge i j with hij | hij
    · have hlower := hw'.writes.lower j hij
      rw [hw.acc, hw.writes.lower j hij] at hlower
      rw [hlower, if_neg Bool.false_ne_true, if_neg (Nat.not_le.mpr hij)]
      exact h.index j hj
    · obtain ⟨herased, hrest⟩ := hw.writes.single hij
      obtain ⟨hnew, hrest'⟩ := hw'.writes.single hij
      rw [hw.acc] at hnew hrest'
      rw [if_neg Bool.false_ne_true, if_pos hij]
      refine (h.index j hj).move ?_ hnew (fun hne => (hrest' _ hne).trans herased) fun key hold' hnew' =>
        (hrest' key hnew').trans (hrest key hold')
      rw [hold, counted_of_clear h hin.le hij hclear]

end Move

variable [LawfulCompactSize] [StreamSerial CFixedUInt64]

theorem flush_counted {i : ℕ} (hi : i < st.1.caches.length) :
    ∃ st', VoteOp.stepCounted st (.cache i .flush) = some st' ∧ Counted n st' := by
  obtain ⟨c, bs, hdrop, -⟩ := CacheStack.exists_drop_eq_cons hi
  let r := CacheStack.flush st.1.acc .vote (st.1.caches.drop i)
  let st' : CacheLevels VoteKey Byte :=
    ⟨r.1, st.1.caches.take i ++ r.2, Function.update st.1.log i (st.1.log i)⟩
  have hstep : VoteOp.step st.1 (.cache i .flush) = some st' := by
    simp only [VoteOp.step, CacheLevels.step, hdrop, st', r]
    rfl
  refine ⟨(st', VoteOp.count st.2 (.cache i .flush)), ?_, ?_, ?_, fun j hj => ?_⟩
  · rw [VoteOp.stepCounted, hstep]
    rfl
  · have hlen := CacheStack.length_flush st.1.acc .vote (st.1.caches.drop i)
    rw [← h.length, List.length_append, hlen, ← List.length_append, List.take_append_drop]
  · have haccess : (CacheOp.flush : CacheOp VoteKey Byte).Accesses := trivial
    exact entries_access h.entries haccess (fun key hsets => hsets.elim) hstep
  · dsimp only [r]
    rw [CacheStack.view_flush_level st.1.acc .vote (genDbKey_injective .vote) hi (h.length.symm ▸ hj)]
    refine h.index _ ?_
    split_ifs
    · exact (h.length ▸ hi).le
    · exact hj

theorem step_counted [LawfulRegIdRaw] {op : LevelOp VoteOp} (hop : VoteOp.Allowed st op) :
    ∃ st', VoteOp.stepCounted st op = some st' ∧ Counted n st' := by
  cases op with
  | database acc =>
    refine ⟨_, rfl, h.length, entries_database h.entries hop, fun j hj => ?_⟩
    rw [CacheStack.view_of_getData st.1.acc .vote (hop.getData _ _)]
    exact h.index j hj
  | cache i op =>
    cases op with
    | move regId old new => exact move_counted h hop
    | flush => exact flush_counted h hop

omit h in
/-- **After every run** of moves and flushes from empty caches over a database without votes. -/
theorem run_counted [LawfulRegIdRaw] {st : CacheLevels VoteKey Byte} (hst : NoEntries .vote st)
    {ops : List (LevelOp VoteOp)} (hops : AllSteps VoteOp.stepCounted VoteOp.Allowed (st, fun _ _ => none) ops) :
    ∃ st', run VoteOp.stepCounted (st, fun _ _ => none) ops = some st' ∧ Counted st.caches.length st' := by
  have hstart : Counted st.caches.length (st, fun _ _ => none) := by
    refine ⟨rfl, hst.entries, fun j _ => ?_⟩
    rw [hst.view_drop]
    exact voteIndex_none
  exact run_exists VoteOp.stepCounted (fun _ _ hI hop => step_counted hI hop) hstart hops

end Runs

end Inery
