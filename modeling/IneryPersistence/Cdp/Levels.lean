import IneryPersistence.Cdp.Invariant
import IneryPersistence.Iterator.Stored

/-!
# CDP stores over CDP stores

* `level`, `putBack`, `flush`: the store of one level, and what an operation there leaves;
* `CdpLevels`, `CdpLevelOp`, `step`: the levels over a database, and the operations at each of them;
* `Listed`, `Listed.new`, `Listed.replace`, `Listed.erase`: the records of the owners are those of the live CDPs;
* `UserWrites`: what an operation writes to the two caches;
* `step_inList`, **`run_inList`**: the records of the owners at every level, after every run.
-/

namespace Inery

open KV

section Model

variable [CompactSize] [DbUtil IneryCdpCoinPair] [Serial Uint256] [DbUtil Uint256]
  [Serial IneryRegIDKey] [DbUtil IneryRegIDKey] [Serial CFixedUInt64] [DbUtil CFixedUInt64]
  [Serial IneryCdpGlobalData] [DbUtil IneryCdpGlobalData] [Serial IneryUserCDP] [DbUtil IneryUserCDP]
  [Serial (Option Uint256)]

namespace IneryCdpDBCache

/-- `GetCDP`. -/
def getCDP (acc : CDBAccess) (st : IneryCdpDBCache) (cdpid : Uint256) : Option IneryUserCDP × IneryCdpDBCache :=
  let r := CacheStack.getData acc .cdp st.cdpCache cdpid
  (r.2, { st with cdpCache := r.1 })

/-- `UserHaveCdp`. -/
def userHaveCdp (acc : CDBAccess) (st : IneryCdpDBCache) (regid : IneryRegID)
    (assetSymbol scoinSymbol : TokenSymbol) : Bool × IneryCdpDBCache :=
  let r := CacheStack.hasData acc .userCdp st.userCdpCache (toLex (⟨regid⟩, ⟨assetSymbol, scoinSymbol⟩))
  (r.2, { st with userCdpCache := r.1 })

/-- `Flush`: one cache after the other. -/
def flush (acc : CDBAccess) (st : IneryCdpDBCache) : CDBAccess × IneryCdpDBCache :=
  let globalData := CacheStack.flush acc .cdpGlobalData st.cdpGlobalDataCache
  let cdp := CacheStack.flush globalData.1 .cdp st.cdpCache
  let userCdp := CacheStack.flush cdp.1 .userCdp st.userCdpCache
  let ratioIndex := CacheStack.flush userCdp.1 .cdpRatioIndex st.cdpRatioIndexCache
  let heightIndex := CacheStack.flush ratioIndex.1 .cdpHeightIndex st.cdpHeightIndexCache
  (heightIndex.1, ⟨globalData.2, cdp.2, userCdp.2, ratioIndex.2, heightIndex.2, st.pDbOpLogMap⟩)

/-- The store that is `i` levels under the top. -/
def level (st : IneryCdpDBCache) (i : ℕ) : IneryCdpDBCache where
  cdpGlobalDataCache := st.cdpGlobalDataCache.drop i
  cdpCache := st.cdpCache.drop i
  userCdpCache := st.userCdpCache.drop i
  cdpRatioIndexCache := st.cdpRatioIndexCache.drop i
  cdpHeightIndexCache := st.cdpHeightIndexCache.drop i
  pDbOpLogMap := st.pDbOpLogMap

/-- The caches above the level `i`, over what an operation at that level leaves. -/
def putBack (st : IneryCdpDBCache) (i : ℕ) (st' : IneryCdpDBCache) : IneryCdpDBCache where
  cdpGlobalDataCache := st.cdpGlobalDataCache.take i ++ st'.cdpGlobalDataCache
  cdpCache := st.cdpCache.take i ++ st'.cdpCache
  userCdpCache := st.userCdpCache.take i ++ st'.userCdpCache
  cdpRatioIndexCache := st.cdpRatioIndexCache.take i ++ st'.cdpRatioIndexCache
  cdpHeightIndexCache := st.cdpHeightIndexCache.take i ++ st'.cdpHeightIndexCache
  pDbOpLogMap := st'.pDbOpLogMap

end IneryCdpDBCache

/-- Stores over a database. -/
structure CdpLevels where
  acc : CDBAccess
  store : IneryCdpDBCache

/-- What happens at one level. -/
inductive CdpLevelOp
  | op (op : CdpOp)
  | getCDP (cdpid : Uint256)
  | userHaveCdp (regid : IneryRegID) (assetSymbol scoinSymbol : TokenSymbol)
  | flush

namespace CdpLevels

/-- One operation at a level, or what other caches do to the database. -/
def step (ratio : IneryUserCDP → UInt64) (st : CdpLevels) : LevelOp CdpLevelOp → Option CdpLevels
  | .cache i (.op op) =>
    ((st.store.level i).step st.acc ratio op).map fun store => { st with store := st.store.putBack i store }
  | .cache i (.getCDP cdpid) =>
    some { st with store := st.store.putBack i ((st.store.level i).getCDP st.acc cdpid).2 }
  | .cache i (.userHaveCdp regid assetSymbol scoinSymbol) =>
    some { st with
      store := st.store.putBack i ((st.store.level i).userHaveCdp st.acc regid assetSymbol scoinSymbol).2 }
  | .cache i .flush =>
    let r := (st.store.level i).flush st.acc
    some ⟨r.1, st.store.putBack i r.2⟩
  | .database acc => some { st with acc := acc }

end CdpLevels

end Model

/-! ## The records of the owners -/

section Listed

variable [DbUtil Uint256] [DbUtil IneryRegIDKey] [DbUtil IneryCdpCoinPair]

/-- **The records of the owners are those of the live CDPs.** -/
structure Listed (cdps : Uint256 → Option IneryUserCDP) (userCdps : UserCdpKey → Option (Option Uint256)) :
    Prop where
  named : ∀ cdpid cdp, cdps cdpid = some cdp → cdp.cdpid = cdpid ∧ cdp.Named
  userCdp : ∀ key value, userCdps key = some value ↔
    ∃ cdp, cdps cdp.cdpid = some cdp ∧ cdp.userKey = key ∧ value = some cdp.cdpid

theorem listed_none : Listed (fun _ => none) fun _ => none where
  named _ _ h := absurd h nofun
  userCdp _ _ := by simp

variable {cdps : Uint256 → Option IneryUserCDP} {userCdps : UserCdpKey → Option (Option Uint256)}

namespace Listed

variable (h : Listed cdps userCdps)
include h

theorem find {cdp : IneryUserCDP} (hcdp : cdps cdp.cdpid = some cdp) :
    userCdps cdp.userKey = some (some cdp.cdpid) := (h.userCdp _ _).mpr ⟨cdp, hcdp, rfl, rfl⟩

theorem eq_of_userKey {cdp cdp' : IneryUserCDP} (hcdp : cdps cdp.cdpid = some cdp)
    (hcdp' : cdps cdp'.cdpid = some cdp') (hkey : cdp.userKey = cdp'.userKey) : cdp = cdp' := by
  have hfind := h.find hcdp
  rw [hkey, h.find hcdp'] at hfind
  have hid := Option.some.inj (Option.some.inj hfind)
  rw [hid, hcdp] at hcdp'
  exact Option.some.inj hcdp'

theorem new {cdp : IneryUserCDP} (hnamed : cdp.Named) (hid : cdps cdp.cdpid = none)
    (hkey : userCdps cdp.userKey = none) : Listed (Function.update cdps cdp.cdpid (some cdp))
      (Function.update userCdps cdp.userKey (some (some cdp.cdpid))) where
  named cdpid cdp' hcdp' := by
    rw [Function.update_apply] at hcdp'
    split_ifs at hcdp' with heq
    · obtain rfl := Option.some.inj hcdp'
      exact ⟨heq.symm, hnamed⟩
    · exact h.named cdpid cdp' hcdp'
  userCdp key value := by
    have hlive : ∀ cdp', Function.update cdps cdp.cdpid (some cdp) cdp'.cdpid = some cdp' ↔
        cdp' = cdp ∨ cdps cdp'.cdpid = some cdp' := by
      intro cdp'
      rw [Function.update_apply]
      split_ifs with heq
      · rw [heq, hid, or_iff_left nofun, Option.some.injEq, eq_comm]
      · exact (or_iff_right fun hcdp => heq (congrArg _ hcdp)).symm
    simp only [hlive, or_and_right, exists_or, exists_eq_left, ← h.userCdp]
    rw [Function.update_apply]
    split_ifs with heq
    · rw [heq, hkey, or_iff_left nofun, Option.some.injEq, eq_self_iff_true, true_and, eq_comm]
    · rw [or_iff_right fun hcdp => heq hcdp.1.symm]

theorem replace {oldCDP cdp : IneryUserCDP} (hold : cdps oldCDP.cdpid = some oldCDP)
    (hid : cdp.cdpid = oldCDP.cdpid) (hkey : cdp.userKey = oldCDP.userKey) (hnamed : cdp.Named) :
    Listed (Function.update cdps cdp.cdpid (some cdp)) userCdps where
  named cdpid cdp' hcdp' := by
    rw [Function.update_apply] at hcdp'
    split_ifs at hcdp' with heq
    · obtain rfl := Option.some.inj hcdp'
      exact ⟨heq.symm, hnamed⟩
    · exact h.named cdpid cdp' hcdp'
  userCdp key value := by
    rw [h.userCdp]
    constructor
    · rintro ⟨cdp', hcdp', rfl, rfl⟩
      by_cases heq : cdp'.cdpid = cdp.cdpid
      · obtain rfl : oldCDP = cdp' := by
          rw [heq, hid, hold] at hcdp'
          exact Option.some.inj hcdp'
        exact ⟨cdp, Function.update_self _ _ _, hkey, by rw [hid]⟩
      · exact ⟨cdp', by rwa [Function.update_of_ne heq], rfl, rfl⟩
    · rintro ⟨cdp', hcdp', rfl, rfl⟩
      rw [Function.update_apply] at hcdp'
      split_ifs at hcdp' with heq
      · obtain rfl := Option.some.inj hcdp'
        exact ⟨oldCDP, hold, hkey.symm, by rw [hid]⟩
      · exact ⟨cdp', hcdp', rfl, rfl⟩

theorem erase {oldCDP : IneryUserCDP} (hold : cdps oldCDP.cdpid = some oldCDP) :
    Listed (Function.update cdps oldCDP.cdpid none) (Function.update userCdps oldCDP.userKey none) where
  named cdpid cdp' hcdp' := by
    rw [Function.update_apply] at hcdp'
    split_ifs at hcdp' with heq
    exact h.named cdpid cdp' hcdp'
  userCdp key value := by
    constructor
    · intro hkey
      rw [Function.update_apply] at hkey
      split_ifs at hkey with heq
      obtain ⟨cdp, hcdp, rfl, rfl⟩ := (h.userCdp key value).mp hkey
      refine ⟨cdp, ?_, rfl, rfl⟩
      rw [Function.update_of_ne fun hid => heq ?_]
      · exact hcdp
      · rw [hid, hold] at hcdp
        rw [Option.some.inj hcdp]
    · rintro ⟨cdp, hcdp, rfl, rfl⟩
      rw [Function.update_apply] at hcdp
      split_ifs at hcdp with heq
      rw [Function.update_of_ne fun hkey => heq ?_]
      · exact h.find hcdp
      · rw [h.eq_of_userKey hcdp hold hkey]

end Listed

end Listed

/-! ## What is written -/

section Writes

variable [CompactSize] [DbUtil IneryCdpCoinPair] [Serial Uint256] [DbUtil Uint256]
  [Serial IneryRegIDKey] [DbUtil IneryRegIDKey] [Serial CFixedUInt64] [DbUtil CFixedUInt64]
  [Serial IneryCdpGlobalData] [DbUtil IneryCdpGlobalData] [Serial IneryUserCDP] [DbUtil IneryUserCDP]
  [Serial (Option Uint256)]

namespace IneryCdpDBCache

/-- The CDPs and the records of the owners are the same. -/
def SameUsers (st st' : IneryCdpDBCache) : Prop :=
  st'.cdpCache = st.cdpCache ∧ st'.userCdpCache = st.userCdpCache

section Index

variable (acc : CDBAccess) (ratio : IneryUserCDP → UInt64) (st : IneryCdpDBCache) (cdp : IneryUserCDP)

omit [Serial IneryRegIDKey] [DbUtil IneryRegIDKey] [Serial (Option Uint256)] in
theorem saveCdpIndexData_sameUsers : st.SameUsers (st.saveCdpIndexData acc ratio cdp).2 :=
  andThen_keeps ⟨rfl, rfl⟩ fun _ h => andThen_keeps h fun _ h => h

omit [Serial IneryRegIDKey] [DbUtil IneryRegIDKey] [Serial (Option Uint256)] in
theorem eraseCdpIndexData_sameUsers : st.SameUsers (st.eraseCdpIndexData acc ratio cdp).2 :=
  andThen_keeps ⟨rfl, rfl⟩ fun _ h => h

end Index

/-- The caches above a level hold no entry for the records of a CDP. -/
structure ClearOf (st : IneryCdpDBCache) (i : ℕ) (userCdp : IneryUserCDP) : Prop where
  cdp : CacheStack.Clear i [userCdp.cdpid] st.cdpCache
  userCdp : CacheStack.Clear i [userCdp.userKey] st.userCdpCache

/-- The values that the two caches take at a level. -/
structure UserWrites (acc : CDBAccess) (i : ℕ) (L : List (Uint256 × Option IneryUserCDP))
    (L' : List (UserCdpKey × Option (Option Uint256))) (st st' : IneryCdpDBCache) : Prop where
  cdp : CacheStack.Writes acc .cdp i L st.cdpCache st'.cdpCache
  userCdp : CacheStack.Writes acc .userCdp i L' st.userCdpCache st'.userCdpCache

theorem flush_sameRecords (acc : CDBAccess) (st : IneryCdpDBCache) :
    let globalData := CacheStack.flush acc .cdpGlobalData st.cdpGlobalDataCache
    let cdp := CacheStack.flush globalData.1 .cdp st.cdpCache
    let userCdp := CacheStack.flush cdp.1 .userCdp st.userCdpCache
    SameRecords .cdp acc globalData.1 ∧ SameRecords .userCdp acc cdp.1 ∧
      SameRecords .cdp cdp.1 (st.flush acc).1 ∧ SameRecords .userCdp userCdp.1 (st.flush acc).1 := by
  have hglobal : PrefixType.cdpGlobalData.InUse := by decide
  have hcdp : PrefixType.cdp.InUse := by decide
  have huser : PrefixType.userCdp.InUse := by decide
  have hratio : PrefixType.cdpRatioIndex.InUse := by decide
  have hheight : PrefixType.cdpHeightIndex.InUse := by decide
  refine ⟨sameRecords_flush hglobal hcdp (by decide) acc _,
    (sameRecords_flush hglobal huser (by decide) acc _).trans (sameRecords_flush hcdp huser (by decide) _ _), ?_, ?_⟩
  · exact (sameRecords_flush huser hcdp (by decide) _ _).trans
      ((sameRecords_flush hratio hcdp (by decide) _ _).trans (sameRecords_flush hheight hcdp (by decide) _ _))
  · exact (sameRecords_flush hratio huser (by decide) _ _).trans (sameRecords_flush hheight huser (by decide) _ _)

section Specs

variable {acc : CDBAccess} {ratio : IneryUserCDP → UInt64} {i : ℕ} {st : IneryCdpDBCache} {cdp : IneryUserCDP}
  (hi : i < st.cdpCache.length) (hi' : i < st.userCdpCache.length)
include hi hi'

omit [DbUtil IneryCdpCoinPair] [DbUtil IneryRegIDKey] [Serial CFixedUInt64] [DbUtil CFixedUInt64]
  [Serial IneryCdpGlobalData] [DbUtil IneryCdpGlobalData] hi' in
theorem getCDP_writes (cdpid : Uint256) :
    UserWrites acc i [] [] st (st.putBack i ((st.level i).getCDP acc cdpid).2) where
  cdp := CacheStack.writes_getData acc .cdp hi.le cdpid
  userCdp := by
    simp only [putBack, getCDP, level, List.take_append_drop]
    exact CacheStack.writes_refl acc .userCdp i _

omit [DbUtil Uint256] [Serial CFixedUInt64] [DbUtil CFixedUInt64] [Serial IneryCdpGlobalData]
  [DbUtil IneryCdpGlobalData] hi in
theorem userHaveCdp_writes (regid : IneryRegID) (assetSymbol scoinSymbol : TokenSymbol) : UserWrites acc i [] []
    st (st.putBack i ((st.level i).userHaveCdp acc regid assetSymbol scoinSymbol).2) where
  cdp := by
    simp only [putBack, userHaveCdp, level, List.take_append_drop]
    exact CacheStack.writes_refl acc .cdp i _
  userCdp := by
    simp only [putBack, userHaveCdp, level, CacheStack.hasData_fst]
    exact CacheStack.writes_getData acc .userCdp hi'.le _

variable [LawfulDbUtil IneryUserCDP] (hnamed : cdp.Named) (hclear : st.ClearOf i cdp)
include hnamed hclear

theorem newCDP_writes (hcdp : isEmpty cdp = false) : UserWrites acc i [(cdp.cdpid, some cdp)]
    [(cdp.userKey, some (some cdp.cdpid))] st (st.putBack i ((st.level i).newCDP acc ratio cdp).2) := by
  obtain ⟨t, old, hset, -, hw⟩ := CacheStack.writes_setData acc .cdp hnamed.1 hi hclear.cdp st.pDbOpLogMap cdp
  obtain ⟨t', old', hset', -, hw'⟩ := CacheStack.writes_setData acc .userCdp hnamed.userKey hi' hclear.userCdp
    (addOpLog st.pDbOpLogMap .cdp (ser cdp.cdpid) old) (some cdp.cdpid)
  rw [live_of_not_isEmpty hcdp] at hw
  have hnew : ((st.level i).newCDP acc ratio cdp).2.cdpCache = t ∧
      ((st.level i).newCDP acc ratio cdp).2.userCdpCache = t' := by
    simp only [newCDP, Member.setData, Inery.cdpCache, Inery.userCdpCache, level, hset, hset', andThen_true]
    exact saveCdpIndexData_sameUsers acc ratio _ cdp
  constructor
  · rwa [putBack, hnew.1]
  · rwa [putBack, hnew.2]

theorem eraseCDP_writes (oldCDP : IneryUserCDP) : UserWrites acc i [(cdp.cdpid, none)] [(cdp.userKey, none)] st
    (st.putBack i ((st.level i).eraseCDP acc ratio oldCDP cdp).2) := by
  obtain ⟨t, log, her, hw, -⟩ := CacheStack.writes_eraseData acc .cdp hnamed.1 hi hclear.cdp st.pDbOpLogMap
  obtain ⟨t', log', her', hw', -⟩ := CacheStack.writes_eraseData acc .userCdp hnamed.userKey hi' hclear.userCdp log
  have herase : ((st.level i).eraseCDP acc ratio oldCDP cdp).2.cdpCache = t ∧
      ((st.level i).eraseCDP acc ratio oldCDP cdp).2.userCdpCache = t' := by
    simp only [eraseCDP, Member.eraseData, Inery.cdpCache, Inery.userCdpCache, level, her, her', andThen_true]
    exact eraseCdpIndexData_sameUsers acc ratio _ oldCDP
  constructor
  · rwa [putBack, herase.1]
  · rwa [putBack, herase.2]

variable (ratio) in
omit hi' in
theorem updateCDP_writes (oldCDP : IneryUserCDP) (hcdp : isEmpty cdp = false) :
    ∃ st', ((st.level i).updateCDP acc ratio oldCDP cdp).map Prod.snd = some st' ∧
      UserWrites acc i [(cdp.cdpid, some cdp)] [] st (st.putBack i st') := by
  obtain ⟨t, old, hset, -, hw⟩ := CacheStack.writes_setData acc .cdp hnamed.1 hi hclear.cdp st.pDbOpLogMap cdp
  rw [live_of_not_isEmpty hcdp] at hw
  let st₁ : IneryCdpDBCache :=
    { st.level i with cdpCache := t, pDbOpLogMap := addOpLog st.pDbOpLogMap .cdp (ser cdp.cdpid) old }
  let r := andThen (st₁.eraseCdpIndexData acc ratio oldCDP) fun st => st.saveCdpIndexData acc ratio cdp
  obtain ⟨hcdps, husers⟩ : st₁.SameUsers r.2 :=
    andThen_keeps (eraseCdpIndexData_sameUsers acc ratio st₁ oldCDP) fun st h =>
      ⟨(saveCdpIndexData_sameUsers acc ratio st cdp).1.trans h.1,
        (saveCdpIndexData_sameUsers acc ratio st cdp).2.trans h.2⟩
  refine ⟨r.2, ?_, ?_, ?_⟩
  · simp only [updateCDP, hcdp, Member.setData, Inery.cdpCache, level, hset, andThen_true]
    rfl
  · rw [putBack, hcdps]
    exact hw
  · rw [putBack, husers]
    dsimp only [st₁, level]
    rw [List.take_append_drop]
    exact CacheStack.writes_refl acc .userCdp i _

end Specs

end IneryCdpDBCache

end Writes

/-! ## Runs -/

section Runs

variable [CompactSize] [DbUtil IneryCdpCoinPair] [Serial Uint256] [DbUtil Uint256]
  [Serial IneryRegIDKey] [DbUtil IneryRegIDKey] [Serial IneryUserCDP] [DbUtil IneryUserCDP]
  [Serial (Option Uint256)]

namespace CdpLevels

/-- The CDPs at a level. -/
def cdpAt (st : CdpLevels) (j : ℕ) : Uint256 → Option IneryUserCDP :=
  CacheStack.view st.acc .cdp (st.store.cdpCache.drop j)

/-- The records of the owners at a level. -/
def userCdpAt (st : CdpLevels) (j : ℕ) : UserCdpKey → Option (Option Uint256) :=
  CacheStack.view st.acc .userCdp (st.store.userCdpCache.drop j)

/-- At every level, the records of the owners are those of the CDPs. -/
structure InList (n : ℕ) (st : CdpLevels) : Prop where
  cdp : st.store.cdpCache.length = n
  userCdp : st.store.userCdpCache.length = n
  storedLive : StoredLive UserCdpKey (Option Uint256) st.acc .userCdp
  listed : ∀ j, Listed (st.cdpAt j) (st.userCdpAt j)

end CdpLevels

namespace CdpLevels

variable {n : ℕ} {st : CdpLevels} (h : InList n st)
include h

theorem inList_of_writes {i : ℕ} {L : List (Uint256 × Option IneryUserCDP)}
    {L' : List (UserCdpKey × Option (Option Uint256))} {store : IneryCdpDBCache}
    (hw : IneryCdpDBCache.UserWrites st.acc i L L' st.store store)
    (hlisted : ∀ j ≤ i, Listed (restore L (st.cdpAt j)) (restore L' (st.userCdpAt j))) :
    InList n { st with store := store } where
  cdp := hw.cdp.length.trans h.cdp
  userCdp := hw.userCdp.length.trans h.userCdp
  storedLive := h.storedLive
  listed j := by
    rcases Nat.lt_or_ge i j with hij | hij
    · have hl := h.listed j
      rwa [cdpAt, userCdpAt, ← hw.cdp.lower j hij, ← hw.userCdp.lower j hij] at hl
    · have hl := hlisted j hij
      rwa [cdpAt, userCdpAt, ← hw.cdp.upper j hij, ← hw.userCdp.upper j hij] at hl

theorem agree_of_clear {i j : ℕ} (hi : i < n) (hj : j ≤ i) {cdp : IneryUserCDP} (hclear : st.store.ClearOf i cdp) :
    st.cdpAt j cdp.cdpid = st.cdpAt i cdp.cdpid ∧ st.userCdpAt j cdp.userKey = st.userCdpAt i cdp.userKey :=
  ⟨CacheStack.view_drop_of_clear st.acc .cdp (h.cdp.symm ▸ hi.le) hj fun c hc =>
      hclear.cdp c hc _ (List.mem_singleton_self _),
    CacheStack.view_drop_of_clear st.acc .userCdp (h.userCdp.symm ▸ hi.le) hj fun c hc =>
      hclear.userCdp c hc _ (List.mem_singleton_self _)⟩

/-- The CDP that a caller gives with the stored one has its keys, and the levels down to the operation agree on
it. -/
theorem of_stored {i : ℕ} (hi : i < n) {oldCDP cdp : IneryUserCDP} (hstored : st.cdpAt i oldCDP.cdpid = some oldCDP)
    (hsame : cdp.cdpid = oldCDP.cdpid ∧ cdp.ownerRegid = oldCDP.ownerRegid ∧ cdp.getCoinPair = oldCDP.getCoinPair)
    (hclear : st.store.ClearOf i cdp) :
    cdp.Named ∧ cdp.userKey = oldCDP.userKey ∧ ∀ j ≤ i, st.cdpAt j oldCDP.cdpid = some oldCDP := by
  obtain ⟨hid, howner, hpair⟩ := hsame
  refine ⟨?_, ?_, fun j hj => ?_⟩
  · rw [IneryUserCDP.Named, hid, howner, hpair]
    exact ((h.listed i).named _ _ hstored).2
  · rw [IneryUserCDP.userKey, IneryUserCDP.userKey, howner, hpair]
  · have hagree := (agree_of_clear h hi hj hclear).1
    rw [hid] at hagree
    exact hagree.trans hstored

end CdpLevels

variable [Serial CFixedUInt64] [DbUtil CFixedUInt64] [Serial IneryCdpGlobalData] [DbUtil IneryCdpGlobalData]

/-- The CDP that is written or erased. -/
def CdpOp.cdp : CdpOp → IneryUserCDP
  | new cdp | update _ cdp | erase _ cdp => cdp

/-- The steps name levels that there are, the callers of the operations grant `Admits`, and no cache above one has
an entry for the records of the CDP; other caches leave the records of the two. -/
def CdpLevels.StepOk (st : CdpLevels) : LevelOp CdpLevelOp → Prop
  | .cache i (.op op) => i < st.store.cdpCache.length ∧ op.Admits ((st.store.level i).views st.acc) ∧
      st.store.ClearOf i op.cdp
  | .cache i _ => i < st.store.cdpCache.length
  | .database acc => SameRecords .cdp st.acc acc ∧ SameRecords .userCdp st.acc acc

namespace CdpLevels

variable {n : ℕ} {st : CdpLevels} (h : InList n st)
include h

variable [LawfulDbUtil IneryUserCDP] (ratio : IneryUserCDP → UInt64)
  (hcdp : ∀ cdp : IneryUserCDP, isEmpty cdp = isEmpty cdp.cdpid)
include hcdp

theorem op_inList {i : ℕ} (hi : i < n) {op : CdpOp} (hop : op.Admits ((st.store.level i).views st.acc))
    (hclear : st.store.ClearOf i op.cdp) :
    ∃ st', st.step ratio (.cache i (.op op)) = some st' ∧ InList n st' := by
  have hi₁ : i < st.store.cdpCache.length := h.cdp.symm ▸ hi
  have hi₂ : i < st.store.userCdpCache.length := h.userCdp.symm ▸ hi
  cases op with
  | new cdp =>
    obtain ⟨hnamed, hfresh, hone⟩ := hop
    have hnone : st.userCdpAt i cdp.userKey = none := Option.eq_none_iff_forall_ne_some.mpr fun value hvalue => by
      obtain ⟨cdp', hcdp', hkey, -⟩ := ((h.listed i).userCdp _ _).mp hvalue
      exact hone cdp' hcdp' hkey
    refine ⟨_, rfl, inList_of_writes h (IneryCdpDBCache.newCDP_writes hi₁ hi₂ hnamed hclear
      (by rw [hcdp, hnamed.1])) fun j hj => ?_⟩
    obtain ⟨hid, hkey⟩ := agree_of_clear h hi hj hclear
    exact (h.listed j).new hnamed (hid.trans hfresh) (hkey.trans hnone)
  | update oldCDP cdp =>
    obtain ⟨hstored, hsame⟩ := hop
    obtain ⟨hnamed, hkey, hold⟩ := of_stored h hi hstored hsame hclear
    obtain ⟨store, hstore, hw⟩ := IneryCdpDBCache.updateCDP_writes ratio hi₁ hnamed hclear oldCDP
      (by rw [hcdp, hnamed.1])
    refine ⟨{ st with store := st.store.putBack i store }, ?_, inList_of_writes h hw fun j hj =>
      (h.listed j).replace (hold j hj) hsame.1 hkey hnamed⟩
    rw [step, IneryCdpDBCache.step, hstore]
    rfl
  | erase oldCDP cdp =>
    obtain ⟨hstored, hsame⟩ := hop
    obtain ⟨hnamed, hkey, hold⟩ := of_stored h hi hstored hsame hclear
    refine ⟨_, rfl, inList_of_writes h (IneryCdpDBCache.eraseCDP_writes hi₁ hi₂ hnamed hclear oldCDP)
      fun j hj => ?_⟩
    rw [hsame.1, hkey]
    exact (h.listed j).erase (hold j hj)

variable [LawfulCompactSize] [StreamSerial Uint256] [StreamSerial IneryRegIDKey] [LawfulSerial IneryUserCDP]
  [LawfulSerial (Option Uint256)]

omit [LawfulDbUtil IneryUserCDP] hcdp in
theorem flush_inList {i : ℕ} (hi : i < n) :
    ∃ st', st.step ratio (.cache i .flush) = some st' ∧ InList n st' := by
  have hi₁ : i < st.store.cdpCache.length := h.cdp.symm ▸ hi
  have hi₂ : i < st.store.userCdpCache.length := h.userCdp.symm ▸ hi
  obtain ⟨hcdp₀, huser₀, hcdp₁, huser₁⟩ := (st.store.level i).flush_sameRecords st.acc
  let r := (st.store.level i).flush st.acc
  have hlen₁ : (st.store.putBack i r.2).cdpCache.length = n := by
    simp only [r, IneryCdpDBCache.putBack, IneryCdpDBCache.flush, IneryCdpDBCache.level]
    rw [List.length_append, CacheStack.length_flush, ← List.length_append, List.take_append_drop, h.cdp]
  have hlen₂ : (st.store.putBack i r.2).userCdpCache.length = n := by
    simp only [r, IneryCdpDBCache.putBack, IneryCdpDBCache.flush, IneryCdpDBCache.level]
    rw [List.length_append, CacheStack.length_flush, ← List.length_append, List.take_append_drop, h.userCdp]
  refine ⟨⟨r.1, st.store.putBack i r.2⟩, rfl, hlen₁, hlen₂,
    huser₁.storedLive (storedLive_flush (huser₀.storedLive h.storedLive) _), fun j => ?_⟩
  have hviews : ∀ j ≤ n, CdpLevels.cdpAt ⟨r.1, st.store.putBack i r.2⟩ j = st.cdpAt (if j = i + 1 then i else j) ∧
      CdpLevels.userCdpAt ⟨r.1, st.store.putBack i r.2⟩ j = st.userCdpAt (if j = i + 1 then i else j) := fun j hj =>
    ⟨CacheStack.view_flush_among .cdp (genDbKey_injective .cdp) hcdp₀ hcdp₁ hi₁ (h.cdp.symm ▸ hj),
      CacheStack.view_flush_among .userCdp (genDbKey_injective .userCdp) huser₀ huser₁ hi₂ (h.userCdp.symm ▸ hj)⟩
  rcases Nat.le_total j n with hj | hj
  · rw [(hviews j hj).1, (hviews j hj).2]
    exact h.listed _
  · -- under the last level is the database
    have hn := h.listed (if n = i + 1 then i else n)
    rw [← (hviews n le_rfl).1, ← (hviews n le_rfl).2] at hn
    rw [cdpAt, userCdpAt, List.drop_of_length_le hlen₁.le, List.drop_of_length_le hlen₂.le] at hn
    rwa [cdpAt, userCdpAt, List.drop_of_length_le (hlen₁.trans_le hj), List.drop_of_length_le (hlen₂.trans_le hj)]

theorem step_inList {op : LevelOp CdpLevelOp} (hop : st.StepOk op) :
    ∃ st', st.step ratio op = some st' ∧ InList n st' := by
  cases op with
  | database acc =>
    obtain ⟨hcdps, husers⟩ := hop
    refine ⟨_, rfl, h.cdp, h.userCdp, husers.storedLive h.storedLive, fun j => ?_⟩
    have hl := h.listed j
    rwa [cdpAt, userCdpAt, ← CacheStack.view_of_getData st.acc .cdp (hcdps.getData _ _),
      ← CacheStack.view_of_getData st.acc .userCdp (husers.getData _ _)] at hl
  | cache i op =>
    have hi : ∀ {i : ℕ}, i < st.store.cdpCache.length → i < n ∧ i < st.store.userCdpCache.length := fun hi => by
      rw [h.userCdp]
      rw [h.cdp] at hi
      exact ⟨hi, hi⟩
    cases op with
    | op op => exact op_inList h ratio hcdp (hi hop.1).1 hop.2.1 hop.2.2
    | getCDP cdpid =>
      exact ⟨_, rfl, inList_of_writes h (IneryCdpDBCache.getCDP_writes hop cdpid) fun j _ => h.listed j⟩
    | userHaveCdp regid assetSymbol scoinSymbol =>
      exact ⟨_, rfl, inList_of_writes h (IneryCdpDBCache.userHaveCdp_writes (hi hop).2 regid assetSymbol
        scoinSymbol) fun j _ => h.listed j⟩
    | flush => exact flush_inList h ratio (hi hop).1

end CdpLevels

/-- `n` stores without CDPs over a database without them. -/
structure NoCdps (n : ℕ) (st : CdpLevels) : Prop where
  cdp : st.store.cdpCache.length = n
  userCdp : st.store.userCdpCache.length = n
  storedLive : StoredLive UserCdpKey (Option Uint256) st.acc .userCdp
  cdpAt : ∀ j, st.cdpAt j = fun _ => none
  userCdpAt : ∀ j, st.userCdpAt j = fun _ => none

/-- **After every run** of the operations at the levels, the records of the owners are those of the live CDPs. -/
theorem CdpLevels.run_inList [LawfulCompactSize] [StreamSerial Uint256] [StreamSerial IneryRegIDKey]
    [LawfulSerial IneryUserCDP] [LawfulSerial (Option Uint256)] [LawfulDbUtil IneryUserCDP]
    (ratio : IneryUserCDP → UInt64)
    (hcdp : ∀ cdp : IneryUserCDP, isEmpty cdp = isEmpty cdp.cdpid) {n : ℕ} {st : CdpLevels} (hst : NoCdps n st)
    {ops : List (LevelOp CdpLevelOp)} (hops : AllSteps (CdpLevels.step ratio) CdpLevels.StepOk st ops) :
    ∃ st', run (CdpLevels.step ratio) st ops = some st' ∧ InList n st' := by
  have hstart : InList n st := ⟨hst.cdp, hst.userCdp, hst.storedLive, fun j => by
    rw [hst.cdpAt, hst.userCdpAt]
    exact listed_none⟩
  exact run_exists (CdpLevels.step ratio) (fun _ _ hI hop => step_inList hI ratio hcdp hop) hstart hops

end Runs

end Inery
