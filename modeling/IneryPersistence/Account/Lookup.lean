import IneryPersistence.Cache.Kept
import IneryPersistence.Cdp.Keys

/-!
# Accounts and their ids

`IneryAccountDBCache` resolves a registration id to a key id, and a key id to an account. `HasAccount` of a
registration id looks no further than the key id.

* `getAccount`, `hasAccount`, `setAccount`, `saveAccount`, `newRegId`, `eraseAccount`, `eraseKeyId`, `flush`;
* `AccountLevels`, `step`: the stores over a database, and the operations at each of them;
* `Resolved`: every key id that a registration id has belongs to an account;
* `agrees_iff_resolved`: existence and lookup agree exactly if the ids are resolved.
-/

namespace Inery

open KV

/-- What an account is named by. -/
inductive IneryUserID (KeyID PubKey : Type)
  | regid (regid : IneryRegID)
  | keyid (keyid : KeyID)
  | pubkey (pubkey : PubKey)
  | null

/-- What the store asks of accounts and of public keys. -/
structure AccountFields (KeyID PubKey Account : Type) where
  regid : Account → IneryRegID
  keyid : Account → KeyID
  getKeyId : PubKey → KeyID

/-- The two caches, and the log that both write to. -/
structure IneryAccountDBCache (KeyID Account : Type) [LinearOrder KeyID] where
  regId2KeyIdCache : CacheStack IneryRegIDKey KeyID
  accountCache : CacheStack KeyID Account
  pDbOpLogMap : Option CDBOpLogMap

variable {KeyID PubKey Account : Type} [LinearOrder KeyID]

section Model

variable [Serial IneryRegIDKey] [DbUtil IneryRegIDKey] [Serial KeyID] [DbUtil KeyID] [Serial Account]
  [DbUtil Account]

namespace IneryAccountDBCache

variable (acc : CDBAccess) (fields : AccountFields KeyID PubKey Account) (st : IneryAccountDBCache KeyID Account)

/-- `GetKeyId` of a registration id. -/
def getKeyId (regId : IneryRegID) : Option KeyID × IneryAccountDBCache KeyID Account :=
  let r := CacheStack.getData acc .regidKeyid st.regId2KeyIdCache ⟨regId⟩
  (r.2, { st with regId2KeyIdCache := r.1 })

/-- `GetAccount` of a key id. -/
def getAccountByKeyId (keyId : KeyID) : Option Account × IneryAccountDBCache KeyID Account :=
  let r := CacheStack.getData acc .keyidAccount st.accountCache keyId
  (r.2, { st with accountCache := r.1 })

/-- `GetAccount` of a registration id; an id is empty when its key is. -/
def getAccountByRegId (regId : IneryRegID) : Option Account × IneryAccountDBCache KeyID Account :=
  if isEmpty (IneryRegIDKey.mk regId) then (none, st)
  else
    let r := st.getKeyId acc regId
    match r.1 with
    | some keyId => r.2.getAccountByKeyId acc keyId
    | none => (none, r.2)

/-- `GetAccount`. -/
def getAccount : IneryUserID KeyID PubKey → Option Account × IneryAccountDBCache KeyID Account
  | .regid regid => st.getAccountByRegId acc regid
  | .keyid keyid => st.getAccountByKeyId acc keyid
  | .pubkey pubkey => st.getAccountByKeyId acc (fields.getKeyId pubkey)
  | .null => (none, st)

/-- `HasAccount` of a key id. -/
def hasAccountByKeyId (keyId : KeyID) : Bool × IneryAccountDBCache KeyID Account :=
  let r := CacheStack.hasData acc .keyidAccount st.accountCache keyId
  (r.2, { st with accountCache := r.1 })

/-- `HasAccount` of a registration id. -/
def hasAccountByRegId (regId : IneryRegID) : Bool × IneryAccountDBCache KeyID Account :=
  let r := CacheStack.hasData acc .regidKeyid st.regId2KeyIdCache ⟨regId⟩
  (r.2, { st with regId2KeyIdCache := r.1 })

/-- `HasAccount`. -/
def hasAccount : IneryUserID KeyID PubKey → Bool × IneryAccountDBCache KeyID Account
  | .regid regid => st.hasAccountByRegId acc regid
  | .keyid keyid => st.hasAccountByKeyId acc keyid
  | .pubkey pubkey => st.hasAccountByKeyId acc (fields.getKeyId pubkey)
  | .null => (false, st)

/-- `NewRegId`. -/
def newRegId (regid : IneryRegID) (keyId : KeyID) : Bool × IneryAccountDBCache KeyID Account :=
  let r := CacheStack.setData acc .regidKeyid st.pDbOpLogMap st.regId2KeyIdCache ⟨regid⟩ keyId
  (r.2.1, { st with regId2KeyIdCache := r.1, pDbOpLogMap := r.2.2 })

/-- `accountCache.SetData`. -/
def setAccountData (keyId : KeyID) (account : Account) : Bool × IneryAccountDBCache KeyID Account :=
  let r := CacheStack.setData acc .keyidAccount st.pDbOpLogMap st.accountCache keyId account
  (r.2.1, { st with accountCache := r.1, pDbOpLogMap := r.2.2 })

/-- `SetAccount` of a registration id. -/
def setAccountByRegId (regId : IneryRegID) (account : Account) : Bool × IneryAccountDBCache KeyID Account :=
  let r := st.getKeyId acc regId
  match r.1 with
  | some keyId => r.2.setAccountData acc keyId account
  | none => (false, r.2)

/-- `SetAccount`; that of a key id reports success in any case. -/
def setAccount (account : Account) : IneryUserID KeyID PubKey → Bool × IneryAccountDBCache KeyID Account
  | .regid regid => st.setAccountByRegId acc regid account
  | .keyid keyid => (true, (st.setAccountData acc keyid account).2)
  | .pubkey pubkey => (true, (st.setAccountData acc (fields.getKeyId pubkey) account).2)
  | .null => (false, st)

/-- `SaveAccount`. -/
def saveAccount (account : Account) : Bool × IneryAccountDBCache KeyID Account :=
  let st₁ := if isEmpty (IneryRegIDKey.mk (fields.regid account)) then st
    else (st.newRegId acc (fields.regid account) (fields.keyid account)).2
  (true, (st₁.setAccountData acc (fields.keyid account) account).2)

/-- `EraseAccount` of a key id. -/
def eraseAccountByKeyId (keyId : KeyID) : Bool × IneryAccountDBCache KeyID Account :=
  let r := CacheStack.eraseData acc .keyidAccount st.pDbOpLogMap st.accountCache keyId
  (r.2.1, { st with accountCache := r.1, pDbOpLogMap := r.2.2 })

/-- `EraseAccount`: a registration id is refused. -/
def eraseAccount : IneryUserID KeyID PubKey → Bool × IneryAccountDBCache KeyID Account
  | .keyid keyid => st.eraseAccountByKeyId acc keyid
  | .pubkey pubkey => st.eraseAccountByKeyId acc (fields.getKeyId pubkey)
  | _ => (false, st)

/-- `EraseKeyId`. -/
def eraseKeyId : IneryUserID KeyID PubKey → Bool × IneryAccountDBCache KeyID Account
  | .regid regid =>
    let r := CacheStack.eraseData acc .regidKeyid st.pDbOpLogMap st.regId2KeyIdCache ⟨regid⟩
    (r.2.1, { st with regId2KeyIdCache := r.1, pDbOpLogMap := r.2.2 })
  | _ => (false, st)

/-- `Flush`: the accounts first. -/
def flush : CDBAccess × IneryAccountDBCache KeyID Account :=
  let account := CacheStack.flush acc .keyidAccount st.accountCache
  let regId2KeyId := CacheStack.flush account.1 .regidKeyid st.regId2KeyIdCache
  (regId2KeyId.1, ⟨regId2KeyId.2, account.2, st.pDbOpLogMap⟩)

/-- The store that is `i` levels under the top. -/
def level (i : ℕ) : IneryAccountDBCache KeyID Account :=
  ⟨st.regId2KeyIdCache.drop i, st.accountCache.drop i, st.pDbOpLogMap⟩

/-- The caches above the level `i`, over what an operation at that level leaves. -/
def putBack (i : ℕ) (st' : IneryAccountDBCache KeyID Account) : IneryAccountDBCache KeyID Account :=
  ⟨st.regId2KeyIdCache.take i ++ st'.regId2KeyIdCache, st.accountCache.take i ++ st'.accountCache,
    st'.pDbOpLogMap⟩

end IneryAccountDBCache

/-- What happens at one level. -/
inductive AccountOp (KeyID PubKey Account : Type)
  | getAccount (uid : IneryUserID KeyID PubKey)
  | hasAccount (uid : IneryUserID KeyID PubKey)
  | saveAccount (account : Account)
  | setAccount (uid : IneryUserID KeyID PubKey) (account : Account)
  | newRegId (regid : IneryRegID) (keyId : KeyID)
  | eraseAccount (uid : IneryUserID KeyID PubKey)
  | eraseKeyId (uid : IneryUserID KeyID PubKey)

/-- What an operation other than a flush leaves. -/
def AccountOp.apply (acc : CDBAccess) (fields : AccountFields KeyID PubKey Account)
    (st : IneryAccountDBCache KeyID Account) :
    AccountOp KeyID PubKey Account → IneryAccountDBCache KeyID Account
  | getAccount uid => (st.getAccount acc fields uid).2
  | hasAccount uid => (st.hasAccount acc fields uid).2
  | saveAccount account => (st.saveAccount acc fields account).2
  | setAccount uid account => (st.setAccount acc fields account uid).2
  | newRegId regid keyId => (st.newRegId acc regid keyId).2
  | eraseAccount uid => (st.eraseAccount acc fields uid).2
  | eraseKeyId uid => (st.eraseKeyId acc uid).2

/-- An operation at a level, the flush of a level, or what other caches do to the database. -/
inductive AccountLevelOp (KeyID PubKey Account : Type)
  | op (i : ℕ) (op : AccountOp KeyID PubKey Account)
  | flush (i : ℕ)
  | database (acc : CDBAccess)

/-- Stores over a database. -/
structure AccountLevels (KeyID Account : Type) [LinearOrder KeyID] where
  acc : CDBAccess
  store : IneryAccountDBCache KeyID Account

namespace AccountLevels

variable (fields : AccountFields KeyID PubKey Account)

/-- One step; `none` when there is no such level. -/
def step (st : AccountLevels KeyID Account) :
    AccountLevelOp KeyID PubKey Account → Option (AccountLevels KeyID Account)
  | .op i op =>
    if i < st.store.accountCache.length then
      some { st with store := st.store.putBack i (op.apply st.acc fields (st.store.level i)) }
    else none
  | .flush i =>
    if i < st.store.accountCache.length then
      let r := (st.store.level i).flush st.acc
      some ⟨r.1, st.store.putBack i r.2⟩
    else none
  | .database acc => some { st with acc := acc }

/-- The key ids of the registration ids, at a level. -/
def keyIds (st : AccountLevels KeyID Account) (j : ℕ) : IneryRegIDKey → Option KeyID :=
  CacheStack.view st.acc .regidKeyid (st.store.regId2KeyIdCache.drop j)

/-- The accounts of the key ids, at a level. -/
def accounts (st : AccountLevels KeyID Account) (j : ℕ) : KeyID → Option Account :=
  CacheStack.view st.acc .keyidAccount (st.store.accountCache.drop j)

/-- **Existence and lookup of an account agree** at a level. -/
def Agrees (st : AccountLevels KeyID Account) (j : ℕ) (uid : IneryUserID KeyID PubKey) : Prop :=
  ((st.store.level j).hasAccount st.acc fields uid).1 = true ↔
    ∃ account, ((st.store.level j).getAccount st.acc fields uid).1 = some account

end AccountLevels

end Model

/-! ## Agreement -/

section Agreement

variable [DbUtil IneryRegIDKey]

/-- Every key id of a registration id belongs to an account. -/
def Resolved (keyIds : IneryRegIDKey → Option KeyID) (accounts : KeyID → Option Account) : Prop :=
  ∀ key, isEmpty key = false → ∀ keyId, keyIds key = some keyId → (accounts keyId).isSome

/-- A registration id has the key id. -/
def Named (keyIds : IneryRegIDKey → Option KeyID) (keyId : KeyID) : Prop :=
  ∃ key, isEmpty key = false ∧ keyIds key = some keyId

variable {keyIds : IneryRegIDKey → Option KeyID} {accounts : KeyID → Option Account}

/-- A write of an account: one that is left empty may not be named. -/
theorem resolved_setAccount (h : Resolved keyIds accounts) (keyId : KeyID) (account : Option Account) :
    Resolved keyIds (restore [(keyId, account)] accounts) ↔ account.isSome ∨ ¬ Named keyIds keyId := by
  have hself : restore [(keyId, account)] accounts keyId = account := Function.update_self _ _ _
  constructor
  · intro hres
    refine or_iff_not_imp_right.mpr fun hnamed => ?_
    obtain ⟨key, hkey, hfind⟩ := not_not.mp hnamed
    have hsome := hres key hkey keyId hfind
    rwa [hself] at hsome
  · intro hor key hkey keyId' hfind
    by_cases heq : keyId' = keyId
    · rw [heq] at hfind ⊢
      rw [hself]
      exact hor.resolve_right fun hnot => hnot ⟨key, hkey, hfind⟩
    · rw [restore_of_notMem (by simpa using heq)]
      exact h key hkey keyId' hfind

omit [LinearOrder KeyID] in
theorem resolved_setKeyId (h : Resolved keyIds accounts) {key : IneryRegIDKey} (hkey : isEmpty key = false)
    (keyId : Option KeyID) :
    Resolved (restore [(key, keyId)] keyIds) accounts ↔ ∀ k, keyId = some k → (accounts k).isSome := by
  have hself : restore [(key, keyId)] keyIds key = keyId := Function.update_self _ _ _
  constructor
  · intro hres k hk
    exact hres key hkey k (hself.trans hk)
  · intro hall key' hkey' k hk
    by_cases heq : key' = key
    · rw [heq, hself] at hk
      exact hall k hk
    · rw [restore_of_notMem (by simpa using heq)] at hk
      exact h key' hkey' k hk

end Agreement

section Agree

variable [Serial IneryRegIDKey] [DbUtil IneryRegIDKey] [Serial KeyID] [DbUtil KeyID] [Serial Account]
  [DbUtil Account]

namespace AccountLevels

variable (fields : AccountFields KeyID PubKey Account) (st : AccountLevels KeyID Account) (j : ℕ)

omit [Serial IneryRegIDKey] [DbUtil IneryRegIDKey] in
theorem getAccountByKeyId_fst (keyId : KeyID) :
    ((st.store.level j).getAccountByKeyId st.acc keyId).1 =
      if isEmpty keyId then none else st.accounts j keyId := by
  show (CacheStack.getData st.acc .keyidAccount (st.store.accountCache.drop j) keyId).2 = _
  cases hkey : isEmpty keyId with
  | true => rw [CacheStack.getData, if_pos hkey, if_pos rfl]
  | false => exact CacheStack.getData_snd st.acc _ hkey _

omit [Serial IneryRegIDKey] [DbUtil IneryRegIDKey] in
theorem hasAccountByKeyId_fst (keyId : KeyID) :
    ((st.store.level j).hasAccountByKeyId st.acc keyId).1 =
      if isEmpty keyId then false else (st.accounts j keyId).isSome := by
  show (CacheStack.hasData st.acc .keyidAccount (st.store.accountCache.drop j) keyId).2 = _
  cases hkey : isEmpty keyId with
  | true => rw [CacheStack.hasData, if_pos hkey, if_pos rfl]
  | false => exact CacheStack.hasData_snd st.acc _ hkey _

omit [Serial IneryRegIDKey] [DbUtil IneryRegIDKey] in
theorem agrees_keyId (keyId : KeyID) :
    ((st.store.level j).hasAccountByKeyId st.acc keyId).1 = true ↔
      ∃ account, ((st.store.level j).getAccountByKeyId st.acc keyId).1 = some account := by
  rw [hasAccountByKeyId_fst, getAccountByKeyId_fst]
  split_ifs with hkey
  · simp
  · exact Option.isSome_iff_exists

omit [Serial Account] [DbUtil Account] in
theorem hasAccountByRegId_fst (regid : IneryRegID) :
    ((st.store.level j).hasAccountByRegId st.acc regid).1 =
      if isEmpty (IneryRegIDKey.mk regid) then false else (st.keyIds j ⟨regid⟩).isSome := by
  show (CacheStack.hasData st.acc .regidKeyid (st.store.regId2KeyIdCache.drop j) ⟨regid⟩).2 = _
  cases hkey : isEmpty (IneryRegIDKey.mk regid) with
  | true => rw [CacheStack.hasData, if_pos hkey, if_pos rfl]
  | false => exact CacheStack.hasData_snd st.acc _ hkey _

omit [Serial Account] [DbUtil Account] in
theorem getKeyId_fst (regid : IneryRegID) :
    ((st.store.level j).getKeyId st.acc regid).1 =
      if isEmpty (IneryRegIDKey.mk regid) then none else st.keyIds j ⟨regid⟩ := by
  show (CacheStack.getData st.acc .regidKeyid (st.store.regId2KeyIdCache.drop j) ⟨regid⟩).2 = _
  cases hkey : isEmpty (IneryRegIDKey.mk regid) with
  | true => rw [CacheStack.getData, if_pos hkey, if_pos rfl]
  | false => exact CacheStack.getData_snd st.acc _ hkey _

theorem getAccountByRegId_fst (regid : IneryRegID) :
    ((st.store.level j).getAccountByRegId st.acc regid).1 =
      if isEmpty (IneryRegIDKey.mk regid) then none else (st.keyIds j ⟨regid⟩).bind (st.accounts j) := by
  rw [IneryAccountDBCache.getAccountByRegId]
  cases hkey : isEmpty (IneryRegIDKey.mk regid) with
  | true => rw [if_pos rfl, if_pos rfl]
  | false =>
    rw [if_neg Bool.false_ne_true, if_neg Bool.false_ne_true]
    dsimp only
    rw [getKeyId_fst, hkey, if_neg Bool.false_ne_true]
    cases hfind : st.keyIds j ⟨regid⟩ with
    | none => rfl
    | some keyId =>
      have hlive : isEmpty keyId = false := (live_eq_some_iff.mp hfind).2
      have hget := st.getAccountByKeyId_fst j keyId
      rw [if_neg (by rw [hlive]; exact Bool.false_ne_true)] at hget
      exact hget

/-- A registration id whose key id has no account exists, and is not found. -/
theorem agrees_regid_iff (regid : IneryRegID) :
    st.Agrees fields j (.regid regid) ↔ (isEmpty (IneryRegIDKey.mk regid) = false → ∀ keyId,
      st.keyIds j ⟨regid⟩ = some keyId → (st.accounts j keyId).isSome) := by
  have hget := st.getAccountByRegId_fst j regid
  have hhas := st.hasAccountByRegId_fst j regid
  unfold Agrees IneryAccountDBCache.hasAccount IneryAccountDBCache.getAccount
  dsimp only
  rw [hget, hhas]
  cases isEmpty (IneryRegIDKey.mk regid) with
  | true => simp
  | false =>
    rw [if_neg Bool.false_ne_true, if_neg Bool.false_ne_true]
    cases hfind : st.keyIds j ⟨regid⟩ with
    | none => simp
    | some keyId => simp [Option.isSome_iff_exists]

/-- **Existence and lookup agree** exactly if the registration ids are resolved. -/
theorem agrees_iff_resolved : (∀ uid : IneryUserID KeyID PubKey, st.Agrees fields j uid) ↔
    Resolved (st.keyIds j) (st.accounts j) := by
  constructor
  · rintro h ⟨regid⟩ hkey
    exact (agrees_regid_iff fields st j regid).mp (h (.regid regid)) hkey
  · intro h uid
    cases uid with
    | regid regid => exact (agrees_regid_iff fields st j regid).mpr (h ⟨regid⟩)
    | keyid keyid => exact st.agrees_keyId j keyid
    | pubkey pubkey => exact st.agrees_keyId j (fields.getKeyId pubkey)
    | null => simp [Agrees, IneryAccountDBCache.hasAccount, IneryAccountDBCache.getAccount]

end AccountLevels

end Agree

end Inery
