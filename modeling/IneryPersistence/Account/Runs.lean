import IneryPersistence.Account.Lookup
import IneryPersistence.Cache.Levels

/-!
# Runs of the account store

* `keyIdWrite`, `accountWrite`: what an operation writes to each of the two caches;
* `AccountWrites`, `apply_writes`: the levels from that of the operation up take these values;
* `LeavesResolved`, `resolved_iff`: an operation leaves no registration id without its account;
* **`accounts_agree_iff`**: existence and lookup agree in every state of a run exactly then.
-/

namespace Inery

open KV

namespace CacheStack

variable {K V : Type} [LinearOrder K] [Serial K] [DbUtil K] [Serial V] [DbUtil V]

/-- The value of a key that is not empty. -/
def keyed (key : K) (value : Option V) : Option (K × Option V) := if isEmpty key then none else some (key, value)

variable {acc : CDBAccess} {p : PrefixType} {i : ℕ} {s : CacheStack K V} {key : K}

/-- A function that writes one key, and nothing when the key is empty. -/
theorem writes_keyed {value : Option V} {t : CacheStack K V}
    (hclear : Clear i ((keyed key value).toList.map Prod.fst) s) (hempty : isEmpty key = true → t = s.drop i)
    (hwrites : isEmpty key = false → Clear i [key] s → Writes acc p i [(key, value)] s (s.take i ++ t)) :
    Writes acc p i (keyed key value).toList s (s.take i ++ t) := by
  unfold keyed at hclear ⊢
  cases hkey : isEmpty key with
  | true =>
    rw [hempty hkey, if_pos rfl, List.take_append_drop]
    exact writes_refl acc p i s
  | false =>
    rw [hkey] at hclear
    exact hwrites hkey hclear

variable [LawfulDbUtil V] (hi : i < s.length)

include hi

theorem writes_setData_keyed (v : V) (hclear : Clear i ((keyed key (live (some v))).toList.map Prod.fst) s)
    (log : Option CDBOpLogMap) : Writes acc p i (keyed key (live (some v))).toList s
      (s.take i ++ (setData acc p log (s.drop i) key v).1) := by
  refine writes_keyed hclear (fun hkey => by rw [setData, if_pos hkey]) fun hkey hclear => ?_
  obtain ⟨t, old, hset, -, hw⟩ := writes_setData acc p hkey hi hclear log v
  rw [hset]
  exact hw

theorem writes_eraseData_keyed (hclear : Clear i ((keyed key (none : Option V)).toList.map Prod.fst) s)
    (log : Option CDBOpLogMap) : Writes acc p i (keyed key none).toList s
      (s.take i ++ (eraseData acc p log (s.drop i) key).1) := by
  refine writes_keyed hclear (fun hkey => by rw [eraseData, if_pos hkey]) fun hkey hclear => ?_
  obtain ⟨t, log', her, hw, -⟩ := writes_eraseData acc p hkey hi hclear log
  rw [her]
  exact hw

end CacheStack

section Runs

variable {KeyID PubKey Account : Type} [LinearOrder KeyID] [Serial IneryRegIDKey] [DbUtil IneryRegIDKey]
  [Serial KeyID] [DbUtil KeyID] [Serial Account] [DbUtil Account]

/-! ## What an operation writes -/

namespace AccountOp

variable (fields : AccountFields KeyID PubKey Account)

/-- The key id that an operation writes, with its registration id. -/
def keyIdWrite : AccountOp KeyID PubKey Account → Option (IneryRegIDKey × Option KeyID)
  | saveAccount account => CacheStack.keyed ⟨fields.regid account⟩ (live (some (fields.keyid account)))
  | newRegId regid keyId => CacheStack.keyed ⟨regid⟩ (live (some keyId))
  | eraseKeyId (.regid regid) => CacheStack.keyed ⟨regid⟩ none
  | _ => none

/-- The account that an operation writes, with its key id; `keyIds` are those of the level. -/
def accountWrite (keyIds : IneryRegIDKey → Option KeyID) :
    AccountOp KeyID PubKey Account → Option (KeyID × Option Account)
  | saveAccount account => CacheStack.keyed (fields.keyid account) (live (some account))
  | setAccount (.regid regid) account =>
    if isEmpty (IneryRegIDKey.mk regid) then none
    else (keyIds ⟨regid⟩).bind fun keyId => CacheStack.keyed keyId (live (some account))
  | setAccount (.keyid keyid) account => CacheStack.keyed keyid (live (some account))
  | setAccount (.pubkey pubkey) account => CacheStack.keyed (fields.getKeyId pubkey) (live (some account))
  | eraseAccount (.keyid keyid) => CacheStack.keyed keyid none
  | eraseAccount (.pubkey pubkey) => CacheStack.keyed (fields.getKeyId pubkey) none
  | _ => none

end AccountOp

namespace AccountLevels

/-- The values that the two caches take at a level. -/
structure AccountWrites (acc : CDBAccess) (i : ℕ) (L : List (IneryRegIDKey × Option KeyID))
    (L' : List (KeyID × Option Account)) (st st' : IneryAccountDBCache KeyID Account) : Prop where
  keyIds : CacheStack.Writes acc .regidKeyid i L st.regId2KeyIdCache st'.regId2KeyIdCache
  accounts : CacheStack.Writes acc .keyidAccount i L' st.accountCache st'.accountCache

variable (fields : AccountFields KeyID PubKey Account) (st : AccountLevels KeyID Account) (i : ℕ)

/-- The caches above a level hold no entry for what the operation writes. -/
structure ClearOf (op : AccountOp KeyID PubKey Account) : Prop where
  keyIds : CacheStack.Clear i ((op.keyIdWrite fields).toList.map Prod.fst) st.store.regId2KeyIdCache
  accounts : CacheStack.Clear i ((op.accountWrite fields (st.keyIds i)).toList.map Prod.fst) st.store.accountCache

variable [LawfulDbUtil KeyID] [LawfulDbUtil Account] {st i}

theorem apply_writes (hi : i < st.store.regId2KeyIdCache.length) (hi' : i < st.store.accountCache.length)
    {op : AccountOp KeyID PubKey Account} (hclear : st.ClearOf fields i op) :
    AccountWrites st.acc i (op.keyIdWrite fields).toList (op.accountWrite fields (st.keyIds i)).toList st.store
      (st.store.putBack i (op.apply st.acc fields (st.store.level i))) := by
  obtain ⟨hkeyIds, haccounts⟩ := hclear
  have hregs : CacheStack.Writes st.acc .regidKeyid i [] st.store.regId2KeyIdCache
      (st.store.regId2KeyIdCache.take i ++ st.store.regId2KeyIdCache.drop i) := by
    rw [List.take_append_drop]
    exact CacheStack.writes_refl st.acc .regidKeyid i _
  have haccs : CacheStack.Writes st.acc .keyidAccount i [] st.store.accountCache
      (st.store.accountCache.take i ++ st.store.accountCache.drop i) := by
    rw [List.take_append_drop]
    exact CacheStack.writes_refl st.acc .keyidAccount i _
  cases op with
  | newRegId regid keyId => exact ⟨CacheStack.writes_setData_keyed hi keyId hkeyIds _, haccs⟩
  | eraseKeyId uid =>
    cases uid with
    | regid regid => exact ⟨CacheStack.writes_eraseData_keyed hi hkeyIds _, haccs⟩
    | keyid | pubkey | null => exact ⟨hregs, haccs⟩
  | eraseAccount uid =>
    cases uid with
    | keyid keyid => exact ⟨hregs, CacheStack.writes_eraseData_keyed hi' haccounts _⟩
    | pubkey pubkey => exact ⟨hregs, CacheStack.writes_eraseData_keyed hi' haccounts _⟩
    | regid | null => exact ⟨hregs, haccs⟩
  | hasAccount uid =>
    cases uid with
    | regid regid => exact ⟨CacheStack.writes_hasData st.acc .regidKeyid hi.le ⟨regid⟩, haccs⟩
    | keyid keyid => exact ⟨hregs, CacheStack.writes_hasData st.acc .keyidAccount hi'.le keyid⟩
    | pubkey pubkey =>
      exact ⟨hregs, CacheStack.writes_hasData st.acc .keyidAccount hi'.le (fields.getKeyId pubkey)⟩
    | null => exact ⟨hregs, haccs⟩
  | getAccount uid =>
    cases uid with
    | regid regid =>
      have hget := CacheStack.writes_getData st.acc .regidKeyid hi.le ⟨regid⟩
      simp only [AccountOp.apply, IneryAccountDBCache.getAccount, IneryAccountDBCache.getAccountByRegId]
      split_ifs
      · exact ⟨hregs, haccs⟩
      · split
        · next keyId _ => exact ⟨hget, CacheStack.writes_getData st.acc .keyidAccount hi'.le keyId⟩
        · exact ⟨hget, haccs⟩
    | keyid keyid => exact ⟨hregs, CacheStack.writes_getData st.acc .keyidAccount hi'.le keyid⟩
    | pubkey pubkey =>
      exact ⟨hregs, CacheStack.writes_getData st.acc .keyidAccount hi'.le (fields.getKeyId pubkey)⟩
    | null => exact ⟨hregs, haccs⟩
  | saveAccount account =>
    simp only [AccountOp.apply, IneryAccountDBCache.saveAccount]
    split_ifs with hempty
    · refine ⟨?_, CacheStack.writes_setData_keyed hi' account haccounts _⟩
      rw [AccountOp.keyIdWrite, CacheStack.keyed, if_pos hempty]
      exact hregs
    · exact ⟨CacheStack.writes_setData_keyed hi (fields.keyid account) hkeyIds _,
        CacheStack.writes_setData_keyed hi' account haccounts _⟩
  | setAccount uid account =>
    cases uid with
    | regid regid =>
      have hget := CacheStack.writes_getData st.acc .regidKeyid hi.le ⟨regid⟩
      have hkeyId := st.getKeyId_fst i regid
      simp only [AccountOp.accountWrite] at haccounts ⊢
      simp only [AccountOp.apply, IneryAccountDBCache.setAccount, IneryAccountDBCache.setAccountByRegId]
      rw [hkeyId]
      cases hempty : isEmpty (IneryRegIDKey.mk regid) with
      | true => exact ⟨hget, haccs⟩
      | false =>
        rw [hempty] at haccounts
        rw [if_neg Bool.false_ne_true] at haccounts ⊢
        cases hfind : st.keyIds i ⟨regid⟩ with
        | none => exact ⟨hget, haccs⟩
        | some keyId =>
          rw [hfind] at haccounts
          exact ⟨hget, CacheStack.writes_setData_keyed hi' account haccounts _⟩
    | keyid keyid => exact ⟨hregs, CacheStack.writes_setData_keyed hi' account haccounts _⟩
    | pubkey pubkey => exact ⟨hregs, CacheStack.writes_setData_keyed hi' account haccounts _⟩
    | null => exact ⟨hregs, haccs⟩

/-! ## Which operations leave the ids resolved -/

end AccountLevels

namespace AccountOp

variable (fields : AccountFields KeyID PubKey Account)

/-- **When an operation leaves no registration id without its account**, at a level with the given ids and
accounts; `own` are the key ids at the level of the operation. An account may be erased, or set to an empty one,
when no registration id has its key id, and a registration id is given to an account that is there. -/
def LeavesResolved (own keyIds : IneryRegIDKey → Option KeyID) (accounts : KeyID → Option Account) :
    AccountOp KeyID PubKey Account → Prop
  | saveAccount account => isEmpty (fields.keyid account) = true ∨ isEmpty account = false ∨
      isEmpty (IneryRegIDKey.mk (fields.regid account)) = true ∧ ¬ Named keyIds (fields.keyid account)
  | newRegId regid keyId =>
    isEmpty (IneryRegIDKey.mk regid) = true ∨ isEmpty keyId = true ∨ (accounts keyId).isSome
  | op@(setAccount _ account) =>
    isEmpty account = false ∨ ∀ e, op.accountWrite fields own = some e → ¬ Named keyIds e.1
  | op@(eraseAccount _) => ∀ e, op.accountWrite fields own = some e → ¬ Named keyIds e.1
  | _ => True

variable {fields} {own keyIds : IneryRegIDKey → Option KeyID} {accounts : KeyID → Option Account}

omit [LinearOrder KeyID] [Serial IneryRegIDKey] [DbUtil IneryRegIDKey] [Serial KeyID] [DbUtil KeyID]
  [Serial Account] in
theorem isSome_live_some (account : Account) : (live (some account)).isSome ↔ isEmpty account = false := by
  cases h : isEmpty account with
  | true => simp [live_of_isEmpty h]
  | false => simp [live_of_not_isEmpty h]

omit [Serial IneryRegIDKey] [Serial KeyID] [DbUtil KeyID] [Serial Account] [DbUtil Account] in
theorem resolved_accountWrite (h : Resolved keyIds accounts) (w : Option (KeyID × Option Account)) :
    Resolved keyIds (restore w.toList accounts) ↔ ∀ e, w = some e → e.2.isSome ∨ ¬ Named keyIds e.1 := by
  cases w with
  | none => exact iff_of_true h nofun
  | some e =>
    obtain ⟨keyId, account⟩ := e
    rw [Option.toList_some, resolved_setAccount h]
    simp only [Option.some_inj, forall_eq']

omit [LinearOrder KeyID] [Serial IneryRegIDKey] [Serial KeyID] [DbUtil KeyID] [Serial Account] [DbUtil Account] in
theorem resolved_keyIdWrite (h : Resolved keyIds accounts) (key : IneryRegIDKey) (keyId : Option KeyID) :
    Resolved (restore (CacheStack.keyed key keyId).toList keyIds) accounts ↔
      isEmpty key = true ∨ ∀ k, keyId = some k → (accounts k).isSome := by
  unfold CacheStack.keyed
  cases hkey : isEmpty key with
  | true => exact iff_of_true h (.inl rfl)
  | false =>
    rw [if_neg Bool.false_ne_true, Option.toList_some, resolved_setKeyId h hkey]
    simp only [Bool.false_eq_true, false_or]

omit [LinearOrder KeyID] [Serial IneryRegIDKey] [Serial KeyID] [Serial Account] in
theorem accountWrite_setAccount {uid : IneryUserID KeyID PubKey} {account : Account}
    {e : KeyID × Option Account} (h : (setAccount uid account).accountWrite fields own = some e) :
    e.2 = live (some account) := by
  have hkeyed : ∀ keyId : KeyID, CacheStack.keyed keyId (live (some account)) = some e →
      e.2 = live (some account) := by
    intro keyId hk
    unfold CacheStack.keyed at hk
    split_ifs at hk
    rw [← Option.some.inj hk]
  cases uid with
  | regid regid =>
    simp only [accountWrite] at h
    split_ifs at h
    obtain ⟨keyId, -, hk⟩ := Option.bind_eq_some_iff.mp h
    exact hkeyed keyId hk
  | keyid keyid => exact hkeyed keyid h
  | pubkey pubkey => exact hkeyed _ h
  | null => cases h

omit [LinearOrder KeyID] [Serial IneryRegIDKey] [Serial KeyID] [Serial Account] in
theorem accountWrite_eraseAccount {uid : IneryUserID KeyID PubKey} {e : KeyID × Option Account}
    (h : (eraseAccount uid : AccountOp KeyID PubKey Account).accountWrite fields own = some e) : e.2 = none := by
  have hkeyed : ∀ keyId : KeyID, CacheStack.keyed keyId (none : Option Account) = some e → e.2 = none := by
    intro keyId hk
    unfold CacheStack.keyed at hk
    split_ifs at hk
    rw [← Option.some.inj hk]
  cases uid with
  | keyid keyid => exact hkeyed keyid h
  | pubkey pubkey => exact hkeyed _ h
  | regid | null => cases h

omit [Serial IneryRegIDKey] [Serial KeyID] [Serial Account] in
/-- `SaveAccount` writes both, and the registration id last that counts is the new one. -/
theorem resolved_saveAccount (h : Resolved keyIds accounts) (account : Account) :
    Resolved (restore ((saveAccount account : AccountOp KeyID PubKey Account).keyIdWrite fields).toList keyIds)
        (restore ((saveAccount account : AccountOp KeyID PubKey Account).accountWrite fields own).toList accounts) ↔
      (saveAccount account : AccountOp KeyID PubKey Account).LeavesResolved fields own keyIds accounts := by
  simp only [keyIdWrite, accountWrite, LeavesResolved]
  cases hkeyId : isEmpty (fields.keyid account) with
  | true =>
    -- no account is written, and the registration id loses its key id
    have hnone : (CacheStack.keyed (fields.keyid account) (live (some account))) = none := by
      rw [CacheStack.keyed, if_pos hkeyId]
    rw [hnone, live_of_isEmpty hkeyId]
    exact iff_of_true ((resolved_keyIdWrite h _ _).mpr (.inr nofun)) (.inl rfl)
  | false =>
    have hself : restore (CacheStack.keyed (fields.keyid account) (live (some account))).toList accounts
        (fields.keyid account) = live (some account) := by
      rw [CacheStack.keyed, hkeyId, if_neg Bool.false_ne_true]
      exact Function.update_self _ _ _
    have hwrite := resolved_accountWrite h (CacheStack.keyed (fields.keyid account) (live (some account)))
    rw [live_of_not_isEmpty hkeyId]
    cases hempty : isEmpty account with
    | false =>
      refine iff_of_true ((resolved_keyIdWrite (hwrite.mpr fun e he => .inl ?_) _ _).mpr
        (.inr fun k hk => ?_)) (.inr (.inl rfl))
      · unfold CacheStack.keyed at he
        rw [hkeyId, if_neg Bool.false_ne_true] at he
        rw [← Option.some.inj he]
        exact (isSome_live_some account).mpr hempty
      · obtain rfl := Option.some.inj hk
        rw [hself]
        exact (isSome_live_some account).mpr hempty
    | true =>
      cases hregid : isEmpty (IneryRegIDKey.mk (fields.regid account)) with
      | true =>
        have hnone : CacheStack.keyed (IneryRegIDKey.mk (fields.regid account)) (some (fields.keyid account)) =
            none := by
          rw [CacheStack.keyed, if_pos hregid]
        rw [hnone]
        refine hwrite.trans ?_
        rw [CacheStack.keyed, hkeyId, if_neg Bool.false_ne_true, live_of_isEmpty hempty]
        simp
      | false =>
        -- the registration id is given the account that is not there
        refine iff_of_false (fun hres => ?_) (by simp)
        have hsome := hres ⟨fields.regid account⟩ hregid (fields.keyid account) (by
          rw [CacheStack.keyed, hregid, if_neg Bool.false_ne_true]
          exact Function.update_self _ _ _)
        rw [hself, live_of_isEmpty hempty] at hsome
        exact absurd hsome Bool.false_ne_true

omit [Serial IneryRegIDKey] [Serial KeyID] [Serial Account] in
/-- **The ids are resolved after an operation** exactly then. -/
theorem resolved_iff (h : Resolved keyIds accounts) (op : AccountOp KeyID PubKey Account) :
    Resolved (restore (op.keyIdWrite fields).toList keyIds)
        (restore (op.accountWrite fields own).toList accounts) ↔
      op.LeavesResolved fields own keyIds accounts := by
  cases op with
  | getAccount | hasAccount => exact iff_of_true h trivial
  | saveAccount account => exact resolved_saveAccount h account
  | newRegId regid keyId =>
    refine (resolved_keyIdWrite h ⟨regid⟩ (live (some keyId))).trans (or_congr_right ?_)
    cases hkeyId : isEmpty keyId with
    | true => simp [live_of_isEmpty hkeyId]
    | false => simp [live_of_not_isEmpty hkeyId]
  | eraseKeyId uid =>
    cases uid with
    | regid regid => exact iff_of_true ((resolved_keyIdWrite h ⟨regid⟩ none).mpr (.inr nofun)) trivial
    | keyid | pubkey | null => exact iff_of_true h trivial
  | eraseAccount uid =>
    refine (resolved_accountWrite h _).trans (forall₂_congr fun e he => ?_)
    rw [accountWrite_eraseAccount he]
    simp
  | setAccount uid account =>
    refine (resolved_accountWrite h _).trans ?_
    have hcongr : ∀ e, (setAccount uid account).accountWrite fields own = some e →
        (e.2.isSome ∨ ¬ Named keyIds e.1 ↔ isEmpty account = false ∨ ¬ Named keyIds e.1) := fun e he => by
      rw [accountWrite_setAccount he, isSome_live_some]
    refine (forall₂_congr hcongr).trans ?_
    simp only [LeavesResolved, forall_or_left]

end AccountOp

/-! ## Runs -/

namespace AccountLevels

variable (fields : AccountFields KeyID PubKey Account)

/-- The level exists, no cache above an operation has an entry for what it writes, and others leave the records
of the two caches. -/
def Ready (st : AccountLevels KeyID Account) : AccountLevelOp KeyID PubKey Account → Prop
  | .op i op => i < st.store.accountCache.length ∧ st.ClearOf fields i op
  | .flush i => i < st.store.accountCache.length
  | .database acc => SameRecords .regidKeyid st.acc acc ∧ SameRecords .keyidAccount st.acc acc

/-- At its level and at every level above, an operation leaves no registration id without its account. -/
def LeavesResolved (st : AccountLevels KeyID Account) : AccountLevelOp KeyID PubKey Account → Prop
  | .op i op => ∀ j ≤ i, op.LeavesResolved fields (st.keyIds i) (st.keyIds j) (st.accounts j)
  | _ => True

/-- Both caches have `n` levels. -/
def Deep (n : ℕ) (st : AccountLevels KeyID Account) : Prop :=
  st.store.regId2KeyIdCache.length = n ∧ st.store.accountCache.length = n

/-- The ids are resolved at each of the `n` levels. -/
def ResolvedAt (n : ℕ) (st : AccountLevels KeyID Account) : Prop :=
  ∀ j < n, Resolved (st.keyIds j) (st.accounts j)

variable {n : ℕ} {st : AccountLevels KeyID Account} {i : ℕ}

section Flush

variable [LawfulSerial IneryRegIDKey] [LawfulSerial KeyID] [LawfulSerial Account]

theorem views_flushLevel (h : Deep n st) (hi : i < n) :
    ∃ st', step fields st (.flush i) = some st' ∧ Deep n st' ∧ ∀ j ≤ n,
      st'.keyIds j = st.keyIds (if j = i + 1 then i else j) ∧
        st'.accounts j = st.accounts (if j = i + 1 then i else j) := by
  obtain ⟨hlen, hlen'⟩ := h
  have huse : PrefixType.keyidAccount.InUse := by decide
  have huse' : PrefixType.regidKeyid.InUse := by decide
  have hstep : step fields st (.flush i) = some ⟨((st.store.level i).flush st.acc).1,
      st.store.putBack i ((st.store.level i).flush st.acc).2⟩ := by
    rw [step, if_pos (hlen'.symm ▸ hi)]
  refine ⟨_, hstep, ⟨?_, ?_⟩, fun j hj => ⟨?_, ?_⟩⟩
  · simp only [IneryAccountDBCache.putBack, IneryAccountDBCache.flush, IneryAccountDBCache.level]
    rw [List.length_append, CacheStack.length_flush, ← List.length_append, List.take_append_drop, hlen]
  · simp only [IneryAccountDBCache.putBack, IneryAccountDBCache.flush, IneryAccountDBCache.level]
    rw [List.length_append, CacheStack.length_flush, ← List.length_append, List.take_append_drop, hlen']
  · exact CacheStack.view_flush_among .regidKeyid (genDbKey_injective .regidKeyid)
      (sameRecords_flush huse huse' (by decide) st.acc _) (sameRecords_of_find? fun _ => rfl)
      (hlen.symm ▸ hi) (hlen.symm ▸ hj)
  · exact CacheStack.view_flush_among .keyidAccount (genDbKey_injective .keyidAccount)
      (sameRecords_of_find? fun _ => rfl) (sameRecords_flush huse' huse (by decide) _ _) (hlen'.symm ▸ hi)
      (hlen'.symm ▸ hj)

end Flush

variable [LawfulDbUtil KeyID] [LawfulDbUtil Account]

theorem views_op (h : Deep n st) (hi : i < n) {op : AccountOp KeyID PubKey Account}
    (hclear : st.ClearOf fields i op) :
    ∃ st', step fields st (.op i op) = some st' ∧ Deep n st' ∧
      (∀ j ≤ i, st'.keyIds j = restore (op.keyIdWrite fields).toList (st.keyIds j) ∧
        st'.accounts j = restore (op.accountWrite fields (st.keyIds i)).toList (st.accounts j)) ∧
      ∀ j, i < j → st'.keyIds j = st.keyIds j ∧ st'.accounts j = st.accounts j := by
  obtain ⟨hlen, hlen'⟩ := h
  have hw := apply_writes fields (hlen.symm ▸ hi) (hlen'.symm ▸ hi) hclear
  have hstep : step fields st (.op i op) =
      some ⟨st.acc, st.store.putBack i (op.apply st.acc fields (st.store.level i))⟩ := by
    rw [step, if_pos (hlen'.symm ▸ hi)]
  exact ⟨_, hstep, ⟨hw.keyIds.length.trans hlen, hw.accounts.length.trans hlen'⟩,
    fun j hj => ⟨hw.keyIds.upper j hj, hw.accounts.upper j hj⟩,
    fun j hj => ⟨hw.keyIds.lower j hj, hw.accounts.lower j hj⟩⟩

variable [LawfulSerial IneryRegIDKey] [LawfulSerial KeyID] [LawfulSerial Account]

theorem deep_step {op : AccountLevelOp KeyID PubKey Account} (h : Deep n st) (hop : st.Ready fields op)
    {st' : AccountLevels KeyID Account} (hstep : step fields st op = some st') : Deep n st' := by
  cases op with
  | op i op =>
    obtain ⟨st₁, h₁, hdeep, -⟩ := views_op fields h (h.2 ▸ hop.1) hop.2
    obtain rfl : st₁ = st' := Option.some.inj (h₁.symm.trans hstep)
    exact hdeep
  | flush i =>
    have hi : i < st.store.accountCache.length := hop
    obtain ⟨st₁, h₁, hdeep, -⟩ := views_flushLevel fields h (h.2 ▸ hi)
    obtain rfl : st₁ = st' := Option.some.inj (h₁.symm.trans hstep)
    exact hdeep
  | database acc =>
    obtain rfl := Option.some.inj hstep
    exact h

/-- **One step** leaves the ids resolved exactly if its operation does. -/
theorem resolvedAt_step_iff {op : AccountLevelOp KeyID PubKey Account} (h : Deep n st) (hst : ResolvedAt n st)
    (hop : st.Ready fields op) :
    (∀ st', step fields st op = some st' → ResolvedAt n st') ↔ st.LeavesResolved fields op := by
  cases op with
  | op i op =>
    have hi : i < n := h.2 ▸ hop.1
    obtain ⟨st₁, h₁, -, hupper, hlower⟩ := views_op fields h hi hop.2
    rw [h₁]
    simp only [Option.some_inj, forall_eq', LeavesResolved]
    constructor
    · intro hres j hj
      have hresj := hres j (hj.trans_lt hi)
      rw [(hupper j hj).1, (hupper j hj).2] at hresj
      exact (AccountOp.resolved_iff (hst j (hj.trans_lt hi)) op).mp hresj
    · intro hok j hj
      rcases Nat.lt_or_ge i j with hij | hij
      · rw [(hlower j hij).1, (hlower j hij).2]
        exact hst j hj
      · rw [(hupper j hij).1, (hupper j hij).2]
        exact (AccountOp.resolved_iff (hst j hj) op).mpr (hok j hij)
  | flush i =>
    have hi : i < n := h.2 ▸ (hop : i < st.store.accountCache.length)
    obtain ⟨st₁, h₁, -, hviews⟩ := views_flushLevel fields h hi
    refine iff_of_true (fun st' hstep j hj => ?_) trivial
    obtain rfl : st₁ = st' := Option.some.inj (h₁.symm.trans hstep)
    rw [(hviews j hj.le).1, (hviews j hj.le).2]
    split_ifs
    · exact hst i hi
    · exact hst j hj
  | database acc =>
    refine iff_of_true (fun st' hstep j hj => ?_) trivial
    obtain rfl := Option.some.inj hstep
    have hres := hst j hj
    rwa [keyIds, accounts, ← CacheStack.view_of_getData st.acc .regidKeyid (hop.1.getData _ _),
      ← CacheStack.view_of_getData st.acc .keyidAccount (hop.2.getData _ _)] at hres

/-- **Account lookup and account existence agree** in every state of a run, for every user id at every level,
exactly if no operation of the run leaves a registration id without its account. The run starts with stores of
`n` levels where they agree. -/
theorem accounts_agree_iff (hdeep : Deep n st)
    (hst : ∀ j < n, ∀ uid : IneryUserID KeyID PubKey, st.Agrees fields j uid)
    {ops : List (AccountLevelOp KeyID PubKey Account)} (hops : AllSteps (step fields) (Ready fields) st ops) :
    (∀ os, os <+: ops → ∀ st', run (step fields) st os = some st' →
        ∀ j < n, ∀ uid : IneryUserID KeyID PubKey, st'.Agrees fields j uid) ↔
      AllSteps (step fields) (LeavesResolved fields) st ops := by
  have hagrees : ∀ st' : AccountLevels KeyID Account,
      (∀ j < n, ∀ uid : IneryUserID KeyID PubKey, st'.Agrees fields j uid) ↔ ResolvedAt n st' := fun st' =>
    forall₂_congr fun j _ => agrees_iff_resolved fields st' j
  simp only [hagrees] at hst ⊢
  exact forall_run_iff_of_invariant (step fields) (fun _ _ _ h hop hstep => deep_step fields h hop hstep)
    (fun _ _ h hst hop => resolvedAt_step_iff fields h hst hop) hdeep hst hops

end AccountLevels

end Runs

/-! ## Concrete runs -/

/-- An account with nothing but its two ids; key ids are bytes. -/
structure PlainAccount where
  regid : IneryRegID
  keyid : Byte

namespace PlainAccount

open BigEndianKeys

scoped instance : Serial PlainAccount where
  ser account := ser account.keyid ++ ser (IneryRegIDKey.mk account.regid)
  unser bytes := (unser (α := Byte) bytes).bind fun k =>
    (unser (α := IneryRegIDKey) k.2).map fun r => (⟨r.1.regid, k.1⟩, r.2)

scoped instance : LawfulSerial PlainAccount where
  unser_ser account := by
    change ((unser (ser account.keyid ++ ser (IneryRegIDKey.mk account.regid))).bind _) = _
    rw [StreamSerial.unser_append, Option.bind_some, LawfulSerial.unser_ser]
    rfl

/-- An account without a key id is empty. -/
scoped instance : DbUtil PlainAccount :=
  ⟨⟨toLex (0, 0), 0⟩, fun account => account.keyid == 0, fun _ => ⟨toLex (0, 0), 0⟩⟩

scoped instance : LawfulDbUtil PlainAccount := ⟨fun _ => rfl⟩

/-- The fields of such an account; a public key is its key id. -/
def fields : AccountFields Byte Byte PlainAccount := ⟨PlainAccount.regid, PlainAccount.keyid, id⟩

/-- The first account of block 7, with the key id 5. -/
def first : PlainAccount := ⟨toLex (7, 1), 5⟩

/-- Two stores without entries over an empty database. -/
def noAccounts : AccountLevels Byte PlainAccount :=
  ⟨⟨.account, ∅⟩, List.replicate 2 ⟨∅, true, 0⟩, List.replicate 2 ⟨∅, true, 0⟩, none⟩

/-- An account is saved, flushed into the base, and set there by its registration id. -/
theorem accounts_agree_iff_first :
    let ops : List (AccountLevelOp Byte Byte PlainAccount) :=
      [.op 0 (.saveAccount first), .flush 0, .op 1 (.setAccount (.regid (toLex (7, 1))) first)]
    AllSteps (AccountLevels.step fields) (AccountLevels.LeavesResolved fields) noAccounts ops ∧
      ∀ os, os <+: ops → ∀ st', run (AccountLevels.step fields) noAccounts os = some st' →
        ∀ j < 2, ∀ uid : IneryUserID Byte Byte, st'.Agrees fields j uid := by
  intro ops
  have hstart : ∀ j < 2, ∀ uid : IneryUserID Byte Byte, noAccounts.Agrees fields j uid := by
    intro j hj
    rw [AccountLevels.agrees_iff_resolved]
    intro key _ keyId hfind
    have hview : noAccounts.keyIds j key = none := by
      rcases Nat.lt_succ_iff_lt_or_eq.mp hj with h | rfl
      · obtain rfl := Nat.lt_one_iff.mp h
        rfl
      · rfl
    rw [hview] at hfind
    cases hfind
  have hops : AllSteps (AccountLevels.step fields) (AccountLevels.Ready fields) noAccounts ops := by
    refine ⟨⟨by decide, fun _ h => absurd h List.not_mem_nil, fun _ h => absurd h List.not_mem_nil⟩,
      fun st₁ h₁ => ?_⟩
    obtain rfl := Option.some.inj h₁
    refine ⟨show 0 < 2 by decide, fun st₂ h₂ => ?_⟩
    obtain rfl := Option.some.inj h₂
    refine ⟨⟨show 1 < 2 by decide, fun c hc key _ => ?_, fun c hc key _ => ?_⟩, fun _ _ => trivial⟩
    · obtain rfl := List.mem_singleton.mp hc
      rfl
    · obtain rfl := List.mem_singleton.mp hc
      rfl
  have hresolved : AllSteps (AccountLevels.step fields) (AccountLevels.LeavesResolved fields) noAccounts ops :=
    ⟨fun _ _ => .inr (.inl rfl), fun _ _ => ⟨trivial, fun _ _ => ⟨fun _ _ => .inl rfl, fun _ _ => trivial⟩⟩⟩
  have hdeep : AccountLevels.Deep 2 noAccounts := ⟨rfl, rfl⟩
  exact ⟨hresolved, (AccountLevels.accounts_agree_iff fields hdeep hstart hops).mpr hresolved⟩

/-- An account is erased, and its registration id is left behind. -/
theorem erased_account_exists :
    ∃ st', run (AccountLevels.step fields) noAccounts
        [.op 0 (.saveAccount first), .op 0 (.eraseAccount (.keyid 5))] = some st' ∧
      ((st'.store.level 0).hasAccount st'.acc fields (.regid (toLex (7, 1)))).1 = true ∧
        ¬ st'.Agrees fields 0 (.regid (toLex (7, 1))) := by
  refine ⟨_, rfl, by decide +kernel, fun hagree => ?_⟩
  obtain ⟨account, haccount⟩ := hagree.mp (by decide +kernel)
  have hsome := congrArg Option.isSome haccount
  rw [Option.isSome_some] at hsome
  exact absurd hsome (by decide +kernel)

end PlainAccount

end Inery
