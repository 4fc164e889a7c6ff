import IneryPersistence.Cdp.Levels
import IneryPersistence.Iterator.Element
import IneryPersistence.Iterator.Leftover

/-!
# The CDPs of a user

`GetCDPList` walks the records of an owner and reads each CDP by its id. A coin pair is compared as two strings and
written behind their lengths, so that the records of an owner may be in another order than the caches.

* `pushUserCdps`, `getCDPList`: the walk and the reads;
* `userRecords`: the records that the walk gives;
* `IsUserList`, `isUserList_iff`: what the list should be;
* **`getCDPList_iff`**: when it is the right one, after every run.
-/

namespace Inery

open KV

section Model

variable [CompactSize] [Serial Uint256] [DbUtil Uint256] [Serial IneryRegIDKey] [DbUtil IneryRegIDKey]
  [DbUtil IneryCdpCoinPair] [Serial IneryUserCDP] [DbUtil IneryUserCDP] [Serial (Option Uint256)] (acc : CDBAccess)

/-- The loop of `GetCDPList`; `none` when `value()` throws. -/
def pushUserCdps (dbIt : CDBBaseIterator UserCdpKey (Option Uint256)) :
    ℕ → dbIt.State → CacheStack Uint256 IneryUserCDP → List IneryUserCDP →
      Option (Bool × List IneryUserCDP × CacheStack Uint256 IneryUserCDP)
  | 0, _, _, _ => none
  | fuel + 1, st, s, cdpList =>
    match dbIt.cur st with
    | none => some (true, cdpList, s)
    | some (_, value) => value.bind fun cdpid =>
      match CacheStack.getData acc .cdp s cdpid with
      | (s, none) => some (false, cdpList, s)
      | (s, some userCdp) => (dbIt.next st).bind fun st => pushUserCdps dbIt fuel st s (cdpList ++ [userCdp])

/-- `GetCDPList`, which calls `First` twice. -/
def IneryCdpDBCache.getCDPList (st : IneryCdpDBCache) (regid : IneryRegID) (cdpList : List IneryUserCDP) :
    Option (Bool × List IneryUserCDP × IneryCdpDBCache) :=
  let dbIt := prefixIterator (commonPrefixMatcher _ _) (⟨regid⟩ : IneryRegIDKey)
    (CacheStack.create acc .userCdp st.userCdpCache)
  (dbIt.first dbIt.init).bind fun it => (dbIt.first it).bind fun it =>
    (pushUserCdps acc dbIt (dbIt.remaining it + 1) it st.cdpCache cdpList).map fun r =>
      (r.1, r.2.1, { st with cdpCache := r.2.2 })

end Model

/-! ## The walk -/

section Walk

variable [Serial Uint256] [DbUtil Uint256] [Serial IneryUserCDP] [DbUtil IneryUserCDP] {acc : CDBAccess}

/-- The CDP that a record names. -/
def cdpOf (cdps : Uint256 → Option IneryUserCDP) (e : UserCdpKey × Option Uint256) : Option IneryUserCDP :=
  e.2.bind cdps

theorem getData_of_view {s : CacheStack Uint256 IneryUserCDP} {cdps : Uint256 → Option IneryUserCDP}
    (hs : CacheStack.view acc .cdp s = cdps) (hempty : ∀ cdpid, isEmpty cdpid = true → cdps cdpid = none)
    (cdpid : Uint256) : (CacheStack.getData acc .cdp s cdpid).2 = cdps cdpid ∧
      CacheStack.view acc .cdp (CacheStack.getData acc .cdp s cdpid).1 = cdps := by
  cases he : isEmpty cdpid with
  | false =>
    refine ⟨by rw [CacheStack.getData_snd acc .cdp he, hs], ?_⟩
    rw [← hs]
    exact CacheStack.view_getData acc .cdp he s 0
  | true =>
    rw [CacheStack.getData, if_pos he, hempty cdpid he]
    exact ⟨rfl, hs⟩

theorem pushUserCdps_of_enumerates {dbIt : CDBBaseIterator UserCdpKey (Option Uint256)} {st : dbIt.State}
    {l : List (UserCdpKey × Option Uint256)} (h : dbIt.Enumerates st l) (hl : ∀ e ∈ l, isEmpty e.2 = false) {n : ℕ}
    (hn : l.length < n) {s : CacheStack Uint256 IneryUserCDP} {cdps : Uint256 → Option IneryUserCDP}
    (hs : CacheStack.view acc .cdp s = cdps) (hempty : ∀ cdpid, isEmpty cdpid = true → cdps cdpid = none)
    (cdpList : List IneryUserCDP) :
    ∃ r, pushUserCdps acc dbIt n st s cdpList = some r ∧
      (r.1 = true ↔ ∀ e ∈ l, (cdpOf cdps e).isSome) ∧
        (r.1 = true → r.2.1 = cdpList ++ l.filterMap (cdpOf cdps)) := by
  induction l generalizing st n s cdpList with
  | nil =>
    obtain ⟨n, rfl⟩ := Nat.exists_eq_add_of_lt hn
    refine ⟨(true, cdpList, s), ?_, by simp, by simp⟩
    rw [pushUserCdps, h.cur]
    rfl
  | cons e l ih =>
    obtain ⟨hcur, -, st', hnext, h'⟩ := h
    simp only [List.length_cons] at hn
    obtain ⟨n, rfl⟩ : ∃ m, n = m + 1 := ⟨n - 1, by omega⟩
    obtain ⟨key, value⟩ := e
    obtain ⟨cdpid, rfl⟩ : ∃ cdpid, value = some cdpid := by
      have hlive := hl _ List.mem_cons_self
      cases value with
      | none => cases hlive
      | some cdpid => exact ⟨cdpid, rfl⟩
    obtain ⟨hget, hview⟩ := getData_of_view hs hempty cdpid
    rw [pushUserCdps, hcur]
    dsimp only [Option.bind_some]
    cases hr : CacheStack.getData acc .cdp s cdpid with
    | mk s' o =>
      rw [hr] at hget hview
      dsimp only at hget
      cases o with
      | none =>
        refine ⟨(false, cdpList, s'), rfl, iff_of_false Bool.false_ne_true fun hall => ?_,
          fun hfalse => absurd hfalse Bool.false_ne_true⟩
        have hsome := hall _ List.mem_cons_self
        rw [cdpOf, Option.bind_some, ← hget] at hsome
        exact Bool.false_ne_true hsome
      | some userCdp =>
        obtain ⟨r, hpush, hiff, hlist⟩ := ih h' (fun e he => hl e (List.mem_cons_of_mem _ he))
          (show l.length < n by omega) hview (cdpList ++ [userCdp])
        have hcdp : cdpOf cdps (key, some cdpid) = some userCdp := by rw [cdpOf, Option.bind_some, ← hget]
        refine ⟨r, ?_, ?_, fun htrue => ?_⟩
        · dsimp only
          rw [hnext]
          exact hpush
        · rw [hiff, List.forall_mem_cons, hcdp]
          exact (and_iff_right rfl).symm
        · rw [hlist htrue, List.filterMap_cons_some hcdp, List.append_assoc]
          rfl

end Walk

/-! ## The list -/

/-- The list names the CDPs of an owner, each once. -/
def IsUserList (cdps : Uint256 → Option IneryUserCDP) (regid : IneryRegID) (cdpList : List IneryUserCDP) : Prop :=
  cdpList.Nodup ∧ ∀ cdp, cdp ∈ cdpList ↔ cdps cdp.cdpid = some cdp ∧ cdp.ownerRegid = regid

section List

variable [CompactSize] [DbUtil IneryCdpCoinPair] [DbUtil Uint256] [Serial IneryRegIDKey] [DbUtil IneryRegIDKey]
  [Serial (Option Uint256)] {acc : CDBAccess}

/-- The records of an owner that a walk gives. -/
def userRecords (acc : CDBAccess) (s : CacheStack UserCdpKey (Option Uint256)) (regid : IneryRegID) :
    List (UserCdpKey × Option Uint256) :=
  (stackStream acc .userCdp s .all).filter fun e => get0 e.1 = ⟨regid⟩

variable {cdps : Uint256 → Option IneryUserCDP} {s : CacheStack UserCdpKey (Option Uint256)}
  (hlisted : Listed cdps (CacheStack.view acc .userCdp s))

include hlisted

theorem cdpOf_of_view {e : UserCdpKey × Option Uint256} (he : CacheStack.view acc .userCdp s e.1 = some e.2) :
    ∃ cdp, cdpOf cdps e = some cdp ∧ cdps cdp.cdpid = some cdp ∧ e = (cdp.userKey, some cdp.cdpid) := by
  obtain ⟨cdp, hcdp, hkey, hvalue⟩ := (hlisted.userCdp _ _).mp he
  exact ⟨cdp, by rw [cdpOf, hvalue]; exact hcdp, hcdp, Prod.ext hkey.symm hvalue⟩

theorem of_cdpOf_eq_some {e : UserCdpKey × Option Uint256} {cdp : IneryUserCDP} (he : cdpOf cdps e = some cdp) :
    e.2 = some cdp.cdpid ∧ cdps cdp.cdpid = some cdp := by
  obtain ⟨cdpid, hcdpid, hcdp⟩ := Option.bind_eq_some_iff.mp he
  obtain ⟨rfl, -⟩ := hlisted.named cdpid cdp hcdp
  exact ⟨hcdpid, hcdp⟩

variable [LawfulCompactSize] [StreamSerial IneryRegIDKey] [LawfulSerial (Option Uint256)]
  (hdb : StoredLive UserCdpKey (Option Uint256) acc .userCdp) (regid : IneryRegID)

include hdb

/-- **The records of the owner**, each with whether it is one of the database: those of the live CDPs are among
them, and the others are left over. -/
theorem exists_userRecords : ∃ U : List (UserCdpKey × Option Uint256 × Bool),
    U.map (fun e => (e.1, e.2.1)) = userRecords acc s regid ∧ U.Nodup ∧
      (∀ key value low, (key, value, low) ∈ U → get0 key = ⟨regid⟩ ∧
        (CacheStack.view acc .userCdp s key = some value ∧ (low = false ↔ Held s key) ∨
          Leftover acc .userCdp s key)) ∧
      (∀ cdp, cdps cdp.cdpid = some cdp → cdp.ownerRegid = regid →
        ∃ low, (cdp.userKey, some cdp.cdpid, low) ∈ U ∧ (Held s cdp.userKey → low = false)) ∧
      ∀ key, get0 key = ⟨regid⟩ → Leftover acc .userCdp s key → ∃ value, (key, value, true) ∈ U := by
  obtain ⟨T, hmap, hT, hupper, hlowest⟩ := exists_stream (by decide) hdb s
  have hmem : ∀ key value low, (key, value, low) ∈ T.filter (fun e => get0 e.1 = ⟨regid⟩) ↔
      get0 key = ⟨regid⟩ ∧ (key, value, low) ∈ T := fun key value low => by
    rw [List.mem_filter, decide_eq_true_iff, and_comm]
  refine ⟨T.filter fun e => get0 e.1 = ⟨regid⟩, ?_, hT.filter _, fun key value low he => ?_,
    fun cdp hcdp howner => ?_, fun key h₀ hleft => ?_⟩
  · rw [userRecords, ← hmap, List.filter_map]
    rfl
  · obtain ⟨h₀, he⟩ := (hmem key value low).mp he
    refine ⟨h₀, ?_⟩
    cases low with
    | false =>
      obtain ⟨hheld, hview⟩ := (hupper key value).mp he
      exact .inl ⟨hview, iff_of_true rfl hheld⟩
    | true =>
      obtain ⟨hget, hgiven⟩ := (hlowest key value).mp he
      by_cases hheld : Held s key
      · exact .inr ⟨hheld, by rw [hget]; rfl, hgiven⟩
      · refine .inl ⟨?_, iff_of_false nofun hheld⟩
        rw [view_of_not_held hheld, hget, live_of_not_isEmpty (hdb.isEmpty_eq_false hget)]
  · have hview := hlisted.find hcdp
    have h₀ : get0 cdp.userKey = ⟨regid⟩ := congrArg IneryRegIDKey.mk howner
    by_cases hheld : Held s cdp.userKey
    · exact ⟨false, (hmem _ _ _).mpr ⟨h₀, (hupper _ _).mpr ⟨hheld, hview⟩⟩, fun _ => rfl⟩
    · rw [view_of_not_held hheld, live_eq_some_iff] at hview
      exact ⟨true, (hmem _ _ _).mpr ⟨h₀, (hlowest _ _).mpr ⟨hview.1, recordGiven_of_not_held hheld⟩⟩,
        fun h => absurd h hheld⟩
  · obtain ⟨-, hsome, hgiven⟩ := hleft
    obtain ⟨value, hget⟩ := Option.isSome_iff_exists.mp hsome
    exact ⟨value, (hmem _ _ _).mpr ⟨h₀, (hlowest _ _).mpr ⟨hget, hgiven⟩⟩⟩

/-- **When the records name the CDPs of the owner**: when none of them is left over. -/
theorem isUserList_iff :
    ((∀ e ∈ userRecords acc s regid, (cdpOf cdps e).isSome) ∧
      IsUserList cdps regid ((userRecords acc s regid).filterMap (cdpOf cdps))) ↔
    ∀ coinPair, ¬Leftover acc .userCdp s (toLex (⟨regid⟩, coinPair)) := by
  obtain ⟨U, hmap, hU, hgiven, hlive, hleft⟩ := exists_userRecords hlisted hdb regid
  rw [← hmap, List.filterMap_map, List.forall_mem_map]
  constructor
  · rintro ⟨hall, hnodup, hmem⟩ coinPair hover
    -- the CDP that the record names has a record of its own
    obtain ⟨value, hin⟩ := hleft _ rfl hover
    obtain ⟨cdp, hcdp⟩ := Option.isSome_iff_exists.mp (hall _ hin)
    obtain ⟨-, howner⟩ := (hmem cdp).mp (List.mem_filterMap.mpr ⟨_, hin, hcdp⟩)
    obtain ⟨hvalue, hstored⟩ := of_cdpOf_eq_some hlisted hcdp
    obtain ⟨low, hin', hlow⟩ := hlive cdp hstored howner
    have heq := (nodup_filterMap_iff hU).mp hnodup _ hin _ hin' cdp hcdp hstored
    obtain ⟨hkey, hrest⟩ := Prod.mk.inj heq
    have hfalse := hlow (hkey ▸ hover.1)
    rw [← (Prod.mk.inj hrest).2] at hfalse
    exact Bool.noConfusion hfalse
  · intro hnone
    have hview : ∀ key value low, (key, value, low) ∈ U → get0 key = ⟨regid⟩ ∧
        CacheStack.view acc .userCdp s key = some value ∧ (low = false ↔ Held s key) := fun key value low he =>
      ⟨(hgiven _ _ _ he).1, (hgiven _ _ _ he).2.resolve_right fun hover => hnone (ofLex key).2 (by
        rw [← (hgiven _ _ _ he).1]
        exact hover)⟩
    have hnames : ∀ e ∈ U, ∃ cdp, cdpOf cdps (e.1, e.2.1) = some cdp ∧ cdps cdp.cdpid = some cdp ∧
        (e.1, e.2.1) = (cdp.userKey, some cdp.cdpid) := fun e he =>
      cdpOf_of_view hlisted (e := (e.1, e.2.1)) (hview _ _ _ he).2.1
    refine ⟨fun e he => ?_, (nodup_filterMap_iff hU).mpr fun e he e' he' cdp hcdp hcdp' => ?_, fun cdp => ?_⟩
    · obtain ⟨cdp, hcdp, -⟩ := hnames e he
      rw [hcdp]
      rfl
    · -- both are the record of the CDP, and of the same list
      have hrecord : ∀ e ∈ U, cdpOf cdps (e.1, e.2.1) = some cdp → (e.1, e.2.1) = (cdp.userKey, some cdp.cdpid) := by
        intro e he hcdp
        obtain ⟨cdp', hcdp', -, heq⟩ := hnames e he
        rw [hcdp] at hcdp'
        rwa [← Option.some.inj hcdp'] at heq
      obtain ⟨key, value, low⟩ := e
      obtain ⟨key', value', low'⟩ := e'
      obtain ⟨rfl, rfl⟩ := Prod.mk.inj (hrecord _ he hcdp)
      obtain ⟨rfl, rfl⟩ := Prod.mk.inj (hrecord _ he' hcdp')
      have hlow := (hview _ _ _ he).2.2.trans (hview _ _ _ he').2.2.symm
      obtain rfl : low = low' := Bool.eq_iff_iff.mpr (by simpa using not_congr hlow)
      rfl
    · rw [List.mem_filterMap]
      constructor
      · rintro ⟨e, he, hcdp⟩
        obtain ⟨cdp', hcdp', hstored, heq⟩ := hnames e he
        obtain rfl : cdp = cdp' := Option.some.inj (hcdp.symm.trans hcdp')
        have h₀ := (hview _ _ _ he).1
        rw [(Prod.mk.inj heq).1] at h₀
        exact ⟨hstored, congrArg IneryRegIDKey.regid h₀⟩
      · rintro ⟨hstored, howner⟩
        obtain ⟨low, hin, -⟩ := hlive cdp hstored howner
        exact ⟨_, hin, hstored⟩

end List

/-! ## Runs -/

section Runs

variable [CompactSize] [LawfulCompactSize] [DbUtil IneryCdpCoinPair] [LeastEmpty IneryCdpCoinPair]
  [Serial Uint256] [StreamSerial Uint256] [DbUtil Uint256]
  [Serial IneryRegIDKey] [StreamSerial IneryRegIDKey] [DbUtil IneryRegIDKey] [LeastEmpty IneryRegIDKey]
  [Serial CFixedUInt64] [DbUtil CFixedUInt64] [Serial IneryCdpGlobalData] [DbUtil IneryCdpGlobalData]
  [Serial IneryUserCDP] [LawfulSerial IneryUserCDP] [DbUtil IneryUserCDP]
  [Serial (Option Uint256)] [LawfulSerial (Option Uint256)] (howner : SameOrder IneryRegIDKey)

include howner

omit [StreamSerial Uint256] [Serial CFixedUInt64] [DbUtil CFixedUInt64] [Serial IneryCdpGlobalData]
  [DbUtil IneryCdpGlobalData] [LawfulSerial IneryUserCDP] in
theorem getCDPList_spec {acc : CDBAccess} {st : IneryCdpDBCache}
    (hdb : StoredLive UserCdpKey (Option Uint256) acc .userCdp)
    (hlisted : Listed (CacheStack.view acc .cdp st.cdpCache) (CacheStack.view acc .userCdp st.userCdpCache))
    (regid : IneryRegID) (cdpList : List IneryUserCDP) :
    ∃ r, st.getCDPList acc regid cdpList = some r ∧
      (r.1 = true ↔ ∀ e ∈ userRecords acc st.userCdpCache regid,
        (cdpOf (CacheStack.view acc .cdp st.cdpCache) e).isSome) ∧
      (r.1 = true → r.2.1 = cdpList ++ (userRecords acc st.userCdpCache regid).filterMap
        (cdpOf (CacheStack.view acc .cdp st.cdpCache))) := by
  have hser : ∀ coinPair : IneryCdpCoinPair, ser (makeEmptyValue IneryCdpCoinPair) ≤ ser coinPair :=
    IneryCdpCoinPair.ser_le_of_least LeastEmpty.makeEmptyValue_le
  have hyields := prefixIterator_yields howner (by decide) hdb.wellStored hser (⟨regid⟩ : IneryRegIDKey)
    st.userCdpCache
  obtain ⟨it, hit, -⟩ := hyields (CacheStack.create acc .userCdp st.userCdpCache).init
  obtain ⟨it', hit', henum⟩ := hyields it
  have hlive : ∀ e ∈ userRecords acc st.userCdpCache regid, isEmpty e.2 = false := by
    intro e he
    rcases (mem_stackStream_all (by decide) hdb st.userCdpCache).mp (List.mem_filter.mp he).1 with hview | ⟨hget, -⟩
    · exact (live_eq_some_iff.mp hview).2
    · exact hdb.isEmpty_eq_false hget
  have hempty : ∀ cdpid, isEmpty cdpid = true → CacheStack.view acc .cdp st.cdpCache cdpid = none := by
    intro cdpid he
    refine Option.eq_none_iff_forall_ne_some.mpr fun cdp hcdp => ?_
    obtain ⟨rfl, hnamed⟩ := hlisted.named cdpid cdp hcdp
    rw [hnamed.1] at he
    exact Bool.noConfusion he
  obtain ⟨r, hpush, hr⟩ := pushUserCdps_of_enumerates henum hlive (Nat.lt_succ_of_le henum.length_le) rfl hempty
    cdpList
  refine ⟨(r.1, r.2.1, { st with cdpCache := r.2.2 }), ?_, hr⟩
  rw [IneryCdpDBCache.getCDPList]
  refine Option.bind_eq_some_iff.mpr ⟨it, hit, Option.bind_eq_some_iff.mpr ⟨it', hit', ?_⟩⟩
  rw [hpush]
  rfl

/-- **When `GetCDPList` is right.** After every run of `NewCDP`, `UpdateCDP`, `EraseCDP`, reads and flushes at any
levels it returns true and appends exactly the live CDPs of the owner, each once, if and only if no record of the
owner is left over. -/
theorem getCDPList_iff [LawfulDbUtil IneryUserCDP] (ratio : IneryUserCDP → UInt64)
    (hcdp : ∀ cdp : IneryUserCDP, isEmpty cdp = isEmpty cdp.cdpid) {n : ℕ} {st : CdpLevels} (hst : NoCdps n st)
    {ops : List (LevelOp CdpLevelOp)} (hops : AllSteps (CdpLevels.step ratio) CdpLevels.StepOk st ops) :
    ∃ st', run (CdpLevels.step ratio) st ops = some st' ∧ ∀ (i : ℕ) (regid : IneryRegID),
      (∀ cdpList, ∃ userCdps st'', (st'.store.level i).getCDPList st'.acc regid cdpList =
          some (true, cdpList ++ userCdps, st'') ∧ IsUserList (st'.cdpAt i) regid userCdps) ↔
        ∀ coinPair, ¬Leftover st'.acc .userCdp (st'.store.userCdpCache.drop i) (toLex (⟨regid⟩, coinPair)) := by
  obtain ⟨st', hrun, h⟩ := CdpLevels.run_inList ratio hcdp hst hops
  refine ⟨st', hrun, fun i regid => ?_⟩
  have hlisted : Listed (CacheStack.view st'.acc .cdp (st'.store.level i).cdpCache)
      (CacheStack.view st'.acc .userCdp (st'.store.level i).userCdpCache) := h.listed i
  refine Iff.trans ?_ (isUserList_iff hlisted h.storedLive regid)
  constructor
  · intro hright
    obtain ⟨userCdps, st'', hget, hlist⟩ := hright []
    obtain ⟨r, hr, hiff, happend⟩ := getCDPList_spec howner h.storedLive hlisted regid []
    obtain rfl := Option.some.inj (hget.symm.trans hr)
    refine ⟨hiff.mp rfl, ?_⟩
    have hsame := happend rfl
    rw [List.nil_append, List.nil_append] at hsame
    rw [← hsame]
    exact hlist
  · rintro ⟨hall, hlist⟩ cdpList
    obtain ⟨r, hr, hiff, happend⟩ := getCDPList_spec howner h.storedLive hlisted regid cdpList
    refine ⟨_, r.2.2, ?_, hlist⟩
    rw [hr, ← happend (hiff.mpr hall), ← hiff.mpr hall]

end Runs

/-! ## A closed CDP -/

namespace BigEndianKeys

scoped instance : StreamSerial IneryUserCDP where
  unser_append cdp rest := by
    let fields : CdpFields := toLex (cdp.cdpid, toLex (⟨cdp.ownerRegid⟩, toLex (⟨cdp.blockHeight⟩,
      toLex (cdp.assetSymbol, toLex (cdp.scoinSymbol, toLex (⟨cdp.totalStakedINRs⟩,
        toLex (⟨cdp.totalOwedScoins⟩, ⟨cdp.collateralRatioBase⟩)))))))
    change (unser (α := CdpFields) (ser fields ++ rest)).map _ = _
    rw [StreamSerial.unser_append]
    rfl

scoped instance : LawfulSerial (Option Uint256) where
  unser_ser value := by
    cases value with
    | none => rfl
    | some n =>
      change (if (1 : Byte) = 0 then _ else (unser (α := Uint256) (ser n)).map _) = _
      rw [if_neg (by decide), LawfulSerial.unser_ser]
      rfl

/-- One store over an empty database. -/
def oneStore : CdpLevels := ⟨⟨.cdp, ∅⟩, emptyStore⟩

theorem noCdps_oneStore : NoCdps 1 oneStore where
  cdp := rfl
  userCdp := rfl
  storedLive _ hr := absurd hr List.not_mem_nil
  cdpAt j := by
    cases j with
    | zero => rfl
    | succ j => cases j <;> rfl
  userCdpAt j := by
    cases j with
    | zero => rfl
    | succ j => cases j <;> rfl

/-- A CDP of the same owner whose pair is below the other one, and longer. -/
def stakedEthx : IneryUserCDP := { staked100 with cdpid := 2, assetSymbol := bytesOf "ETHX1" }

/-- **A closed CDP makes the list fail.** The record of the other pair comes before that of the closed one. -/
theorem list_of_closed_fails : ∃ st' ∈ run (CdpLevels.step fun cdp => cdp.totalStakedINRs) oneStore
      [.cache 0 (.op (.new staked100)), .cache 0 (.op (.new stakedEthx)), .cache 0 .flush,
        .cache 0 (.op (.erase stakedEthx stakedEthx))],
    st'.cdpAt 0 1 = some staked100 ∧ st'.cdpAt 0 2 = none ∧
      ∃ r ∈ (st'.store.level 0).getCDPList st'.acc (toLex (1, 2)) [], r.1 = false := by
  decide +kernel

/-- The list of an owner with one CDP. -/
theorem getCDPList_iff_one : ∃ st', run (CdpLevels.step fun cdp => cdp.totalStakedINRs) oneStore
      [.cache 0 (.op (.new staked100))] = some st' ∧
    ∃ userCdps st'', (st'.store.level 0).getCDPList st'.acc (toLex (1, 2)) [] = some (true, [] ++ userCdps, st'') ∧
      IsUserList (st'.cdpAt 0) (toLex (1, 2)) userCdps := by
  have hops : AllSteps (CdpLevels.step fun cdp => cdp.totalStakedINRs) CdpLevels.StepOk oneStore
      [.cache 0 (.op (.new staked100))] :=
    ⟨⟨Nat.zero_lt_one, ⟨⟨rfl, rfl, rfl⟩, rfl, fun _ h => absurd h nofun⟩, ⟨nofun, nofun⟩⟩, fun _ _ => trivial⟩
  obtain ⟨st', hrun, hiff⟩ := getCDPList_iff sameOrder_regid (fun cdp => cdp.totalStakedINRs) (fun _ => rfl)
    noCdps_oneStore hops
  have hacc : ∃ st ∈ run (CdpLevels.step fun cdp => cdp.totalStakedINRs) oneStore
      [.cache 0 (.op (.new staked100))], st.acc.db.entries = [] := by decide +kernel
  obtain ⟨st, hst, hdb⟩ := hacc
  obtain rfl : st' = st := Option.some.inj (hrun.symm.trans hst)
  refine ⟨st', hrun, (hiff 0 (toLex (1, 2))).mpr (fun coinPair hleft => ?_) []⟩
  obtain ⟨value, hget⟩ := Option.isSome_iff_exists.mp hleft.2.1
  obtain ⟨bytes, hbytes, -⟩ := Option.bind_eq_some_iff.mp hget
  have hmem := SortedMap.find?_eq_some_iff.mp hbytes
  rw [hdb] at hmem
  exact List.not_mem_nil hmem

end BigEndianKeys

end Inery
