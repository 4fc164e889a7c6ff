import IneryPersistence.Delegate.Votes

/-!
# The delegates with the most votes

`GetTopVoteDelegates` takes the first entries of a walk over the index of the votes.

* `pushTopVotes`, `getTopVoteDelegates`: the walk;
* `Outranks`, `IsRanking`, `IsRanking.unique`: the voted accounts, sorted by votes and then by raw id;
* `delegateVoteKey_lt_iff`, `lt_of_genDbKey_lt`: the records of the votes are in the order of the caches;
* `pushTopVotes_of_enumerates`, `isRanking_takeWhile`: what the walk takes, and that it is a ranking;
* **`getTopVoteDelegates_ranking`**: the top delegates are the first ones of the ranking.
-/

namespace Inery

open KV

/-- A delegate and its votes. -/
@[ext] structure VoteDelegate where
  regid : IneryRegID
  votes : UInt64
deriving DecidableEq

section Model

variable [RegIdRaw]

/-- `GetRegId` and `GetVote` of a `CTopDelegatesIterator`. -/
def voteDelegateOf (key : VoteKey) : VoteDelegate :=
  ⟨ofRegIdRaw (ofLex key).2, delegateVoteFromKey (ofLex key).1⟩

/-- The loop of `GetTopVoteDelegates`, for as many delegates as are missing. -/
def pushTopVotes (it : CDBBaseIterator VoteKey Byte) (BpMinVote : UInt64) (isR3Fork : Bool) :
    ℕ → it.State → Option (List VoteDelegate)
  | 0, _ => some []
  | missing + 1, st =>
    match it.cur st with
    | none => some []
    | some (key, _) =>
      if isR3Fork && (voteDelegateOf key).votes < BpMinVote then some []
      else (it.next st).bind fun st =>
        (pushTopVotes it BpMinVote isR3Fork missing st).map fun topVoteDelegates =>
          voteDelegateOf key :: topVoteDelegates

variable [CompactSize] [Serial CFixedUInt64] [DbUtil CFixedUInt64]

/-- `GetTopVoteDelegates`, which clears the vector that it is given: whether there are any, and which. -/
def getTopVoteDelegates (acc : CDBAccess) (voteRegIdCache : CacheStack VoteKey Byte) (delegateNum : UInt32)
    (BpMinVote : UInt64) (isR3Fork : Bool) : Option (Bool × List VoteDelegate) :=
  let it := CacheStack.create acc .vote voteRegIdCache
  (it.first it.init).bind fun st =>
    (pushTopVotes it BpMinVote isR3Fork delegateNum.toNat st).map fun topVoteDelegates =>
      (!topVoteDelegates.isEmpty, topVoteDelegates)

end Model

/-! ## The ranking -/

section Ranking

variable [RegIdRaw]

/-- More votes, or as many and a smaller raw id. -/
def Outranks (d d' : VoteDelegate) : Prop :=
  d'.votes < d.votes ∨ d.votes = d'.votes ∧ getRegIdRaw d.regid < getRegIdRaw d'.regid

theorem Outranks.asymm {d d' : VoteDelegate} (h : Outranks d d') : ¬Outranks d' d := by
  rintro (h' | ⟨heq', h'⟩)
  · rcases h with h | ⟨heq, -⟩
    · exact UInt64.lt_asymm h h'
    · exact UInt64.ne_of_lt h' heq
  · rcases h with h | ⟨-, h⟩
    · exact UInt64.ne_of_lt h heq'
    · exact h.asymm h'

/-- **All voted accounts**, with their votes, from the first to the last; after the fork, those with enough votes. -/
structure IsRanking (counted : IneryRegID → Option UInt64) (BpMinVote : UInt64) (isR3Fork : Bool)
    (ranking : List VoteDelegate) : Prop where
  sorted : ranking.Pairwise Outranks
  mem : ∀ d, d ∈ ranking ↔ counted d.regid = some d.votes ∧ (isR3Fork = true → BpMinVote ≤ d.votes)

namespace IsRanking

variable {counted : IneryRegID → Option UInt64} {BpMinVote : UInt64} {isR3Fork : Bool}
  {ranking ranking' : List VoteDelegate} (h : IsRanking counted BpMinVote isR3Fork ranking)

include h

theorem nodup : (ranking.map VoteDelegate.regid).Nodup := by
  rw [List.Nodup, List.pairwise_map]
  refine h.sorted.imp_of_mem fun {d d'} hd hd' hrank hregid => ?_
  obtain ⟨hvotes, -⟩ := (h.mem d).mp hd
  obtain ⟨hvotes', -⟩ := (h.mem d').mp hd'
  rw [hregid, hvotes'] at hvotes
  obtain rfl : d = d' := VoteDelegate.ext hregid (Option.some.inj hvotes).symm
  exact hrank.asymm hrank

theorem unique (h' : IsRanking counted BpMinVote isR3Fork ranking') : ranking = ranking' := by
  refine List.Perm.eq_of_pairwise (fun d d' _ _ hrank hrank' => absurd hrank' hrank.asymm) h.sorted h'.sorted
    ((List.perm_ext_iff_of_nodup h.nodup.of_map h'.nodup.of_map).mpr fun d => ?_)
  rw [h.mem, h'.mem]

end IsRanking

end Ranking

/-! ## The walk -/

section Walk

variable [RegIdRaw]

/-- **The loop** stops at the first delegate without enough votes, or when none is missing. -/
theorem pushTopVotes_of_enumerates {it : CDBBaseIterator VoteKey Byte} {st : it.State} {l : List (VoteKey × Byte)}
    (h : it.Enumerates st l) (BpMinVote : UInt64) (isR3Fork : Bool) (missing : ℕ) :
    pushTopVotes it BpMinVote isR3Fork missing st =
      some (((l.map fun e => voteDelegateOf e.1).takeWhile fun d =>
        !(isR3Fork && d.votes < BpMinVote)).take missing) := by
  induction l generalizing st missing with
  | nil =>
    cases missing with
    | zero => rfl
    | succ missing =>
      rw [pushTopVotes, h.cur]
      rfl
  | cons e l ih =>
    cases missing with
    | zero => rw [pushTopVotes, List.take_zero]
    | succ missing =>
      obtain ⟨hcur, -, st', hnext, h'⟩ := h
      rw [pushTopVotes, hcur, List.map_cons, List.takeWhile_cons]
      dsimp only
      cases hstop : isR3Fork && decide ((voteDelegateOf e.1).votes < BpMinVote) with
      | true => rfl
      | false =>
        rw [if_neg Bool.false_ne_true, hnext, Option.bind_some, ih h' missing]
        rfl

variable [LawfulRegIdRaw]

theorem voteDelegateOf_key (votes : UInt64) (regId : IneryRegID) :
    voteDelegateOf (delegateVoteKey votes regId) = ⟨regId, votes⟩ :=
  VoteDelegate.ext (LawfulRegIdRaw.ofRegIdRaw_getRegIdRaw regId) (delegateVoteFromKey_toKey votes)

omit [LawfulRegIdRaw] in
theorem delegateVoteKey_lt_iff {votes votes' : UInt64} {regId regId' : IneryRegID} :
    delegateVoteKey votes regId < delegateVoteKey votes' regId' ↔
      Outranks ⟨regId, votes⟩ ⟨regId', votes'⟩ := by
  have hkey : delegateVoteToKey votes = delegateVoteToKey votes' ↔ votes = votes' := by
    refine ⟨fun heq => ?_, fun heq => heq ▸ rfl⟩
    rw [← delegateVoteFromKey_toKey votes, heq, delegateVoteFromKey_toKey]
  rw [Prod.Lex.lt_iff, Outranks, ← delegateVoteToKey_lt_iff, ← hkey]
  rfl

variable [CompactSize] [Serial CFixedUInt64] [StreamSerial CFixedUInt64]

/-- **Records of votes are in the order of the caches**, as raw ids have one length. -/
theorem lt_of_genDbKey_lt (hfixed : SameOrder CFixedUInt64) {votes votes' : UInt64} {regId regId' : IneryRegID}
    (h : genDbKey .vote (delegateVoteKey votes regId) < genDbKey .vote (delegateVoteKey votes' regId')) :
    delegateVoteKey votes regId < delegateVoteKey votes' regId' := by
  rw [genDbKey, genDbKey, append_lt_append_iff] at h
  change ser (delegateVoteToKey votes) ++ (CompactSize.write (getRegIdRaw regId).length ++ getRegIdRaw regId) <
    ser (delegateVoteToKey votes') ++ (CompactSize.write (getRegIdRaw regId').length ++ getRegIdRaw regId') at h
  refine Prod.Lex.lt_iff.mpr ?_
  rcases lt_trichotomy (delegateVoteToKey votes) (delegateVoteToKey votes') with hlt | heq | hgt
  · exact .inl hlt
  · refine .inr ⟨heq, ?_⟩
    rwa [heq, append_lt_append_iff, LawfulRegIdRaw.length_getRegIdRaw regId regId', append_lt_append_iff] at h
  · exact absurd h (ser_append_lt hfixed hgt _ _).asymm

end Walk

/-! ## The top delegates -/

theorem vote_inUse : PrefixType.vote.InUse := by decide

section Top

variable [RegIdRaw] {counted : IneryRegID → Option UInt64}

theorem isRanking_takeWhile {delegates : List VoteDelegate} (hsorted : delegates.Pairwise Outranks)
    (hmem : ∀ d, d ∈ delegates ↔ counted d.regid = some d.votes) (BpMinVote : UInt64) (isR3Fork : Bool) :
    IsRanking counted BpMinVote isR3Fork
      (delegates.takeWhile fun d => !(isR3Fork && d.votes < BpMinVote)) := by
  have henough : ∀ d : VoteDelegate, (!(isR3Fork && decide (d.votes < BpMinVote))) = true ↔
      (isR3Fork = true → BpMinVote ≤ d.votes) := fun d => by
    cases isR3Fork with
    | false => simp
    | true => simp [UInt64.not_lt]
  have hfilter := (takeWhile_eq_filter (q := fun d : VoteDelegate => !(isR3Fork && decide (d.votes < BpMinVote)))
    (hsorted.imp fun {d d'} hrank hd' => ?_)).1
  · rw [hfilter]
    refine ⟨hsorted.filter _, fun d => ?_⟩
    rw [List.mem_filter, hmem, henough]
  · rw [henough] at hd' ⊢
    refine fun hfork => UInt64.le_trans (hd' hfork) ?_
    rcases hrank with hlt | ⟨heq, -⟩
    · exact UInt64.le_of_lt hlt
    · exact heq ▸ UInt64.le_refl _

variable [LawfulRegIdRaw] [CompactSize] [LawfulCompactSize] [Serial CFixedUInt64] [StreamSerial CFixedUInt64]
  (hfixed : SameOrder CFixedUInt64)

include hfixed

/-- **The delegates of a walk** are the voted accounts, from the first to the last. -/
theorem voteDelegates_of_counted {n : ℕ} {st : CacheLevels VoteKey Byte × VoteCounts} (h : Counted n st) {j : ℕ}
    (hj : j ≤ n) :
    let delegates := (stackStream st.1.acc .vote (st.1.caches.drop j) .all).map fun e => voteDelegateOf e.1
    delegates.Pairwise Outranks ∧ ∀ d, d ∈ delegates ↔ st.2 j d.regid = some d.votes := by
  have hdb := h.entries.storedLive
  have hprec : ∀ w x : VoteKey, Precedes Byte st.1.acc .vote w x → w < x := by
    rintro w x ⟨hw, hx, hlt⟩
    obtain ⟨votes, regId, rfl⟩ := h.entries.keys w (.inr hw)
    obtain ⟨votes', regId', rfl⟩ := h.entries.keys x (.inr hx)
    exact lt_of_genDbKey_lt hfixed hlt
  have hentry : ∀ key value, (key, value) ∈ stackStream st.1.acc .vote (st.1.caches.drop j) .all ↔
      value = 1 ∧ ∃ regId votes, st.2 j regId = some votes ∧ delegateVoteKey votes regId = key := fun key value => by
    rw [mem_stackStream_all vote_inUse hdb, or_iff_left fun hleft => not_leftover hprec _ _ hleft.2]
    exact h.index j hj key value
  constructor
  · rw [List.pairwise_map]
    refine (ascending_stackStream_all vote_inUse hdb.wellStored hprec _).imp_of_mem fun {e e'} he he' hlt => ?_
    obtain ⟨-, regId, votes, -, hkey⟩ := (hentry e.1 e.2).mp he
    obtain ⟨-, regId', votes', -, hkey'⟩ := (hentry e'.1 e'.2).mp he'
    rw [← hkey, ← hkey'] at hlt ⊢
    rw [voteDelegateOf_key, voteDelegateOf_key]
    exact delegateVoteKey_lt_iff.mp hlt
  · intro d
    rw [List.mem_map]
    constructor
    · rintro ⟨e, he, rfl⟩
      obtain ⟨-, regId, votes, hvotes, hkey⟩ := (hentry e.1 e.2).mp he
      rw [← hkey, voteDelegateOf_key]
      exact hvotes
    · intro hvotes
      exact ⟨_, (hentry _ 1).mpr ⟨rfl, d.regid, d.votes, hvotes, rfl⟩, voteDelegateOf_key d.votes d.regid⟩

variable [DbUtil CFixedUInt64]

/-- **The top delegates are the first ones of the ranking**: after every run of moves and flushes, at every level.
The result is false exactly when there are none. -/
theorem getTopVoteDelegates_ranking {st : CacheLevels VoteKey Byte} (hst : NoEntries .vote st)
    {ops : List (LevelOp VoteOp)} (hops : AllSteps VoteOp.stepCounted VoteOp.Allowed (st, fun _ _ => none) ops) :
    ∃ st' counts, run VoteOp.stepCounted (st, fun _ _ => none) ops = some (st', counts) ∧
      ∀ j < st.caches.length, ∀ delegateNum BpMinVote isR3Fork,
        ∃ ranking, IsRanking (counts j) BpMinVote isR3Fork ranking ∧ (ranking.map VoteDelegate.regid).Nodup ∧
          getTopVoteDelegates st'.acc (st'.caches.drop j) delegateNum BpMinVote isR3Fork =
            some (!(ranking.take delegateNum.toNat).isEmpty, ranking.take delegateNum.toNat) := by
  obtain ⟨⟨st', counts⟩, hrun, hcounted⟩ := run_counted hst hops
  refine ⟨st', counts, hrun, fun j hj delegateNum BpMinVote isR3Fork => ?_⟩
  obtain ⟨hsorted, hmem⟩ := voteDelegates_of_counted hfixed hcounted hj.le
  have hranking := isRanking_takeWhile hsorted hmem BpMinVote isR3Fork
  refine ⟨_, hranking, hranking.nodup, ?_⟩
  obtain ⟨it, hit, henum⟩ := CacheStack.create_yields vote_inUse hcounted.entries.storedLive.wellStored
    (st'.caches.drop j) .first (CacheStack.create st'.acc .vote (st'.caches.drop j)).init
  rw [getTopVoteDelegates,
    show (CacheStack.create st'.acc .vote (st'.caches.drop j)).first _ = some it from hit]
  dsimp only [Option.bind_some]
  rw [pushTopVotes_of_enumerates henum]
  rfl

end Top

namespace BigEndianKeys

/-- The raw data of an account id is its height and its index, each with the lowest byte first. -/
scoped instance : RegIdRaw where
  isEmptyRegId regId := (ofLex regId).1 == 0 && (ofLex regId).2 == 0
  getRegIdRaw regId := (bigEndian 4 (ofLex regId).1).reverse ++ (bigEndian 2 (ofLex regId).2).reverse
  ofRegIdRaw bytes := toLex (Fin.ofNat _ (ofBigEndian (bytes.take 4).reverse),
    Fin.ofNat _ (ofBigEndian (bytes.drop 4).reverse))

scoped instance : LawfulRegIdRaw where
  ofRegIdRaw_getRegIdRaw regId := by
    have hlen : (bigEndian 4 (ofLex regId).1).reverse.length = 4 := by simp
    simp only [ofRegIdRaw, getRegIdRaw]
    rw [List.take_left' hlen, List.drop_left' hlen, List.reverse_reverse, List.reverse_reverse,
      ofBigEndian_bigEndian (ofLex regId).1.isLt, ofBigEndian_bigEndian (ofLex regId).2.isLt]
    simp
  length_getRegIdRaw regId regId' := by simp [getRegIdRaw]

/-- Two caches over a database without votes. -/
def noVotes : CacheLevels VoteKey Byte := ⟨⟨.delegate, ∅⟩, [⟨∅, false, 0⟩, ⟨∅, false, 0⟩], fun _ => none⟩

theorem noEntries_noVotes : NoEntries .vote noVotes where
  caches := List.cons_ne_nil _ _
  mapData c hc := by
    rw [List.eq_of_mem_replicate (n := 2) hc]
  records record hr := absurd hr List.not_mem_nil

/-- Two accounts get as many votes, which are flushed, and one of them loses all. -/
def moveVotes : List (LevelOp VoteOp) :=
  [.cache 0 (.move (toLex (1, 2)) 0 5), .cache 0 (.move (toLex (2, 1)) 0 5), .cache 0 .flush,
    .cache 0 (.move (toLex (1, 2)) 5 0)]

theorem allSteps_moveVotes : AllSteps VoteOp.stepCounted VoteOp.Allowed (noVotes, fun _ _ => none) moveVotes := by
  refine ⟨⟨by decide, fun _ => ⟨rfl, nofun⟩⟩, fun st₁ h₁ => ?_⟩
  obtain rfl := Option.some.inj h₁
  refine ⟨⟨by decide +kernel, fun _ => ⟨by decide +kernel, nofun⟩⟩, fun st₂ h₂ => ?_⟩
  obtain rfl := Option.some.inj h₂
  refine ⟨show 0 < List.length _ by decide +kernel, fun st₃ h₃ => ?_⟩
  obtain rfl := Option.some.inj h₃
  exact ⟨⟨by decide +kernel, fun _ => ⟨by decide +kernel, nofun⟩⟩, fun _ _ => trivial⟩

/-- The two accounts, with the votes that they have now. -/
theorem getTopVoteDelegates_ranking_moveVotes : ∃ st' counts,
    run VoteOp.stepCounted (noVotes, fun _ _ => none) moveVotes = some (st', counts) ∧
      ∃ ranking, IsRanking (counts 0) 0 false ranking ∧ (ranking.map VoteDelegate.regid).Nodup ∧
        getTopVoteDelegates st'.acc (st'.caches.drop 0) 2 0 false =
          some (!(ranking.take (2 : UInt32).toNat).isEmpty, ranking.take (2 : UInt32).toNat) := by
  obtain ⟨st', counts, hrun, htop⟩ :=
    getTopVoteDelegates_ranking sameOrder_fixed noEntries_noVotes allSteps_moveVotes
  exact ⟨st', counts, hrun, htop 0 (by decide) 2 0 false⟩

example : ∃ r ∈ run VoteOp.stepCounted (noVotes, fun _ _ => none) moveVotes,
    getTopVoteDelegates r.1.acc r.1.caches 2 0 false =
      some (true, [⟨toLex (2, 1), 5⟩, ⟨toLex (1, 2), 0⟩]) := by decide +kernel

end BigEndianKeys

end Inery
