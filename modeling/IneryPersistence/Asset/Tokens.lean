import IneryPersistence.Cdp.Keys
import IneryPersistence.Iterator.Leftover
import Mathlib.Data.Finset.Insert

/-!
# The tokens with a permission

`GetAssetTokensByPerm` walks all assets. A token symbol is compared as a string and written behind its length, so
that the records of the assets may be in another order than the caches.

* `AssetOp`, `step`: the functions of `CAssetDbCache` on the caches of a stack;
* `getAssetTokensByPerm`: the walk;
* `HasPermNow`: what `GetAsset` says of a token;
* `mem_getAssetTokensByPerm`: the walk also judges the assets of leftover records;
* `TokensNow`, `tokensNow_iff_of_live`: when the tokens are the right ones, if no asset is empty;
* **`getAssetTokensByPerm_iff`**: the same after any run.
-/

namespace Inery

open KV

/-- What is read of an asset. -/
class CAsset (Asset : Type) where
  assetSymbol : Asset → TokenSymbol
  hasPerms : Asset → UInt64 → Bool

export CAsset (assetSymbol hasPerms)

/-- What the functions of a `CAssetDbCache` do to `asset_cache`. -/
inductive AssetOp (Asset : Type)
  | getAsset (tokenSymbol : TokenSymbol)
  | hasAsset (tokenSymbol : TokenSymbol)
  | setAsset (asset : Asset)
  | flush

section Model

variable {Asset : Type} [CAsset Asset]

/-- The operation on the cache. -/
def AssetOp.cacheOp : AssetOp Asset → CacheOp TokenSymbol Asset
  | getAsset tokenSymbol => .getData tokenSymbol
  | hasAsset tokenSymbol => .hasData tokenSymbol
  | setAsset asset => .setData (assetSymbol asset) asset
  | flush => .flush

variable [CompactSize] [Serial Asset] [DbUtil Asset]

/-- One function on the cache of a level, or what other caches do to the database. -/
def AssetOp.step (st : CacheLevels TokenSymbol Asset) :
    LevelOp (AssetOp Asset) → Option (CacheLevels TokenSymbol Asset)
  | .cache i op => CacheLevels.step .asset st (.cache i op.cacheOp)
  | .database acc => CacheLevels.step .asset st (.database acc)

/-- The loop of `GetAssetTokensByPerm`. -/
def insertTokens (it : CDBBaseIterator TokenSymbol Asset) (permType : UInt64) :
    ℕ → it.State → Finset TokenSymbol → Option (Finset TokenSymbol)
  | 0, _, _ => none
  | fuel + 1, st, symbolSet =>
    match it.cur st with
    | none => some symbolSet
    | some (key, value) => (it.next st).bind fun st =>
      insertTokens it permType fuel st (if hasPerms value permType then insert key symbolSet else symbolSet)

/-- `GetAssetTokensByPerm`. -/
def getAssetTokensByPerm (acc : CDBAccess) (assetCache : CacheStack TokenSymbol Asset) (permType : UInt64)
    (symbolSet : Finset TokenSymbol) : Option (Bool × Finset TokenSymbol) :=
  let it := CacheStack.create acc .asset assetCache
  (it.first it.init).bind fun st =>
    (insertTokens it permType (it.remaining st + 1) st symbolSet).map fun symbolSet => (true, symbolSet)

/-- The asset that `GetAsset` returns for a token has the permission. -/
def HasPermNow (acc : CDBAccess) (assetCache : CacheStack TokenSymbol Asset) (permType : UInt64)
    (tokenSymbol : TokenSymbol) : Prop :=
  ∃ asset ∈ (CacheStack.getData acc .asset assetCache tokenSymbol).2, hasPerms asset permType

/-- Other caches leave the records of the assets. -/
def AssetOp.Allowed (st : CacheLevels TokenSymbol Asset) : LevelOp (AssetOp Asset) → Prop
  | .cache _ _ => True
  | .database acc => SameRecords .asset st.acc acc

end Model

/-! ## Runs -/

section Runs

variable {Asset : Type} [CAsset Asset] [CompactSize] [LawfulCompactSize] [Serial Asset] [LawfulSerial Asset]
  [DbUtil Asset] [LawfulDbUtil Asset]

omit [LawfulSerial Asset] in
theorem asset_step {st st' : CacheLevels TokenSymbol Asset}
    (hst : Entries (fun tokenSymbol => isEmpty tokenSymbol = false) .asset st) {op : LevelOp (AssetOp Asset)}
    (hop : AssetOp.Allowed st op) (h : AssetOp.step st op = some st') :
    Entries (fun tokenSymbol => isEmpty tokenSymbol = false) .asset st' := by
  cases op with
  | database acc =>
    obtain rfl := Option.some.inj h
    exact entries_database hst hop
  | cache i op =>
    refine entries_access hst ?_ (fun tokenSymbol hsets => ?_) h
    · cases op <;> trivial
    · cases op with
      | setAsset asset =>
        obtain ⟨rfl, hne⟩ := hsets
        exact hne
      | getAsset | hasAsset | flush => exact hsets.elim

omit [LawfulSerial Asset] in
/-- **After every run** of the functions of `CAssetDbCache`. -/
theorem asset_run {st st' : CacheLevels TokenSymbol Asset} (hst : NoEntries .asset st)
    {ops : List (LevelOp (AssetOp Asset))} (hops : AllSteps AssetOp.step AssetOp.Allowed st ops)
    (h : run AssetOp.step st ops = some st') :
    Entries (fun tokenSymbol => isEmpty tokenSymbol = false) .asset st' :=
  run_invariant AssetOp.step (fun _ _ _ hI hop hstep => asset_step hI hop hstep) hst.entries hops h

end Runs

/-! ## The walk -/

theorem insertTokens_of_enumerates {Asset : Type} [CAsset Asset] {it : CDBBaseIterator TokenSymbol Asset}
    (permType : UInt64) {st : it.State} {l : List (TokenSymbol × Asset)} (h : it.Enumerates st l) {n : ℕ}
    (hn : l.length < n) (symbolSet : Finset TokenSymbol) :
    ∃ symbolSet', insertTokens it permType n st symbolSet = some symbolSet' ∧ ∀ tokenSymbol,
      tokenSymbol ∈ symbolSet' ↔ tokenSymbol ∈ symbolSet ∨
        ∃ asset : Asset, (tokenSymbol, asset) ∈ l ∧ hasPerms asset permType := by
  induction l generalizing st n symbolSet with
  | nil =>
    obtain ⟨n, rfl⟩ := Nat.exists_eq_add_of_lt hn
    refine ⟨symbolSet, ?_, fun tokenSymbol => by simp⟩
    rw [insertTokens, h.cur]
    rfl
  | cons e l ih =>
    obtain ⟨hcur, -, st', hnext, h'⟩ := h
    simp only [List.length_cons] at hn
    obtain ⟨n, rfl⟩ : ∃ m, n = m + 1 := ⟨n - 1, by omega⟩
    obtain ⟨symbolSet', hset, hmem⟩ := ih h' (show l.length < n by omega)
      (if hasPerms e.2 permType then insert e.1 symbolSet else symbolSet)
    refine ⟨symbolSet', ?_, fun tokenSymbol => ?_⟩
    · rw [insertTokens, hcur]
      dsimp only
      rw [hnext]
      exact hset
    · rw [hmem]
      obtain ⟨key, value⟩ := e
      have hcons : (∃ asset : Asset, (tokenSymbol, asset) ∈ (key, value) :: l ∧ hasPerms asset permType) ↔
          tokenSymbol = key ∧ hasPerms value permType ∨ ∃ asset : Asset, (tokenSymbol, asset) ∈ l ∧
            hasPerms asset permType := by
        simp only [List.mem_cons, Prod.mk.injEq, or_and_right, exists_or]
        refine or_congr_left ⟨?_, fun ⟨hkey, hperm⟩ => ⟨value, ⟨hkey, rfl⟩, hperm⟩⟩
        rintro ⟨asset, ⟨hkey, rfl⟩, hperm⟩
        exact ⟨hkey, hperm⟩
      rw [hcons]
      split_ifs with hperm
      · rw [Finset.mem_insert, and_iff_left hperm]
        tauto
      · simp [hperm]

theorem asset_inUse : PrefixType.asset.InUse := by decide

section Walk

variable {Asset : Type} [CAsset Asset] [CompactSize] [LawfulCompactSize] [Serial Asset] [LawfulSerial Asset]
  [DbUtil Asset]

/-- **The tokens that are inserted** are those with the permission now, and those that had it when a leftover
record was written. -/
theorem mem_getAssetTokensByPerm {st : CacheLevels TokenSymbol Asset}
    (hst : Entries (fun tokenSymbol => isEmpty tokenSymbol = false) .asset st) (permType : UInt64)
    (symbolSet : Finset TokenSymbol) :
    ∃ symbolSet', getAssetTokensByPerm st.acc st.caches permType symbolSet = some (true, symbolSet') ∧
      ∀ tokenSymbol, tokenSymbol ∈ symbolSet' ↔ tokenSymbol ∈ symbolSet ∨
        HasPermNow st.acc st.caches permType tokenSymbol ∨
          ∃ asset : Asset, st.acc.getData .asset tokenSymbol = some asset ∧
            Leftover st.acc .asset st.caches tokenSymbol ∧ hasPerms asset permType := by
  obtain ⟨it, hit, henum⟩ := CacheStack.create_yields asset_inUse hst.storedLive.wellStored st.caches .first
    (CacheStack.create st.acc .asset st.caches).init
  obtain ⟨symbolSet', hset, hmem⟩ := insertTokens_of_enumerates permType henum
    (Nat.lt_succ_of_le henum.length_le) symbolSet
  refine ⟨symbolSet', ?_, fun tokenSymbol => ?_⟩
  · rw [getAssetTokensByPerm, show (CacheStack.create st.acc .asset st.caches).first _ = some it from hit]
    dsimp only [Option.bind_some]
    rw [hset]
    rfl
  · have hstream : ∀ asset, (tokenSymbol, asset) ∈ stackStream st.acc .asset st.caches Start.first.bound ↔
        CacheStack.view st.acc .asset st.caches tokenSymbol = some asset ∨
          st.acc.getData .asset tokenSymbol = some asset ∧ Leftover st.acc .asset st.caches tokenSymbol :=
      fun asset => mem_stackStream_all asset_inUse hst.storedLive st.caches
    -- nothing is seen under the empty symbol
    have hnow : HasPermNow st.acc st.caches permType tokenSymbol ↔
        ∃ asset : Asset, CacheStack.view st.acc .asset st.caches tokenSymbol = some asset ∧
          hasPerms asset permType := by
      cases he : isEmpty tokenSymbol with
      | false => rw [HasPermNow, CacheStack.getData_snd st.acc .asset he]; rfl
      | true =>
        refine iff_of_false ?_ ?_
        · rintro ⟨asset, hget, -⟩
          rw [CacheStack.getData, if_pos he] at hget
          cases hget
        · rintro ⟨asset, hview, -⟩
          have hne := hst.keys tokenSymbol (hasEntry_of_find (live_eq_some_iff.mp hview).1)
          rw [he] at hne
          cases hne
    rw [hmem, hnow]
    simp only [hstream, or_and_right, exists_or, and_assoc]

end Walk

section Main

variable {Asset : Type} [CAsset Asset] [CompactSize] [LawfulCompactSize] [Serial Asset] [LawfulSerial Asset]
  [DbUtil Asset]

/-- The tokens that are inserted are those with the permission now. -/
def TokensNow (st : CacheLevels TokenSymbol Asset) (permType : UInt64) : Prop :=
  ∀ symbolSet, ∃ symbolSet',
    getAssetTokensByPerm st.acc st.caches permType symbolSet = some (true, symbolSet') ∧
      ∀ tokenSymbol, tokenSymbol ∈ symbolSet' ↔
        tokenSymbol ∈ symbolSet ∨ HasPermNow st.acc st.caches permType tokenSymbol

theorem tokensNow_iff {st : CacheLevels TokenSymbol Asset}
    (hst : Entries (fun tokenSymbol => isEmpty tokenSymbol = false) .asset st) (permType : UInt64) :
    TokensNow st permType ↔ ∀ tokenSymbol (asset : Asset), st.acc.getData .asset tokenSymbol = some asset →
      hasPerms asset permType → Leftover st.acc .asset st.caches tokenSymbol →
        HasPermNow st.acc st.caches permType tokenSymbol := by
  constructor
  · intro h tokenSymbol asset hget hperm hleft
    obtain ⟨symbolSet', hset, hmem⟩ := h ∅
    obtain ⟨symbolSet'', hset', hmem'⟩ := mem_getAssetTokensByPerm hst permType ∅
    obtain rfl : symbolSet' = symbolSet'' := by
      rw [hset] at hset'
      exact (Prod.mk.inj (Option.some.inj hset')).2
    have hin := (hmem tokenSymbol).mp ((hmem' tokenSymbol).mpr (.inr (.inr ⟨asset, hget, hleft, hperm⟩)))
    exact hin.resolve_left (Finset.notMem_empty _)
  · intro h symbolSet
    obtain ⟨symbolSet', hset, hmem⟩ := mem_getAssetTokensByPerm hst permType symbolSet
    refine ⟨symbolSet', hset, fun tokenSymbol => ?_⟩
    rw [hmem]
    refine or_congr_right (or_iff_left_of_imp ?_)
    rintro ⟨asset, hget, hleft, hperm⟩
    exact h tokenSymbol asset hget hperm hleft

theorem tokensNow_of_length {st : CacheLevels TokenSymbol Asset}
    (hst : Entries (fun tokenSymbol => isEmpty tokenSymbol = false) .asset st)
    (hlen : ∀ w x : TokenSymbol, (st.acc.getData (V := Asset) .asset w).isSome →
      (st.acc.getData (V := Asset) .asset x).isSome → w.length = x.length) (permType : UInt64) :
    TokensNow st permType := by
  refine (tokensNow_iff hst permType).mpr fun tokenSymbol _ _ _ hleft => absurd hleft (not_leftover ?_ _ _)
  rintro w x ⟨hw, hx, hlt⟩
  change _ ++ (CompactSize.write w.length ++ w) < _ ++ (CompactSize.write x.length ++ x) at hlt
  rwa [hlen w x hw hx, ← List.append_assoc, ← List.append_assoc, append_lt_append_iff] at hlt

/-- **Without empty assets in the caches**, a symbol is judged by its record when a cache holds it and the record of
a larger symbol comes before it. -/
theorem tokensNow_iff_of_live {st : CacheLevels TokenSymbol Asset}
    (hst : Entries (fun tokenSymbol => isEmpty tokenSymbol = false) .asset st)
    (hlive : ∀ c ∈ st.caches, ∀ key v, c.mapData.find? key = some v → isEmpty v = false) (permType : UInt64) :
    TokensNow st permType ↔ ∀ tokenSymbol (asset : Asset), st.acc.getData .asset tokenSymbol = some asset →
      hasPerms asset permType → Held st.caches tokenSymbol →
        (∃ w, tokenSymbol < w ∧ Precedes Asset st.acc .asset w tokenSymbol) →
          HasPermNow st.acc st.caches permType tokenSymbol := by
  simp only [tokensNow_iff hst, leftover_iff asset_inUse hst.storedLive.wellStored hlive, and_imp]

/-- **When the tokens with a permission are the right ones**: after every run of the functions of `CAssetDbCache`,
exactly when each token whose leftover record has the permission has it now. -/
theorem getAssetTokensByPerm_iff [LawfulDbUtil Asset] {st st' : CacheLevels TokenSymbol Asset}
    (hst : NoEntries .asset st) {ops : List (LevelOp (AssetOp Asset))}
    (hops : AllSteps AssetOp.step AssetOp.Allowed st ops) (hrun : run AssetOp.step st ops = some st')
    (permType : UInt64) :
    TokensNow st' permType ↔ ∀ tokenSymbol (asset : Asset), st'.acc.getData .asset tokenSymbol = some asset →
      hasPerms asset permType → Leftover st'.acc .asset st'.caches tokenSymbol →
        HasPermNow st'.acc st'.caches permType tokenSymbol :=
  tokensNow_iff (asset_run hst hops hrun) permType

end Main

namespace BigEndianKeys

/-- A symbol and its permissions. -/
scoped instance : CAsset (TokenSymbol ×ₗ Byte) where
  assetSymbol := get0
  hasPerms asset permType := UInt64.ofNat (ofLex asset).2.val &&& permType == permType

/-- A symbol that is below `WICC` and longer. -/
def ethx1 : TokenSymbol := bytesOf "ETHX1"

/-- A cache over a database without assets. -/
def noAssets : CacheLevels TokenSymbol (TokenSymbol ×ₗ Byte) :=
  ⟨⟨.asset, ∅⟩, [⟨∅, false, 0⟩], fun _ => none⟩

theorem noEntries_noAssets : NoEntries .asset noAssets where
  caches := List.cons_ne_nil _ _
  mapData := by
    rintro c hc
    rw [List.mem_singleton.mp hc]
  records record hr := absurd hr List.not_mem_nil

/-- `ETHX1` loses the permission that it has in the database. -/
def losePerm : List (LevelOp (AssetOp (TokenSymbol ×ₗ Byte))) :=
  [.cache 0 (.setAsset (toLex (ethx1, 1))), .cache 0 (.setAsset (toLex (bytesOf "WICC", 0))), .cache 0 .flush,
    .cache 0 (.setAsset (toLex (ethx1, 0)))]

/-- **A token is inserted that has lost the permission**: the record of `WICC` comes before that of `ETHX1`. -/
theorem lost_perm_inserted : ∃ st' ∈ run AssetOp.step noAssets losePerm,
    ¬HasPermNow st'.acc st'.caches 1 ethx1 ∧
      ∃ r ∈ getAssetTokensByPerm st'.acc st'.caches 1 ∅, ethx1 ∈ r.2 := by
  unfold HasPermNow
  decide +kernel

theorem getAssetTokensByPerm_iff_losePerm : ∃ st', run AssetOp.step noAssets losePerm = some st' ∧
    (TokensNow st' 1 ↔ ∀ (tokenSymbol : TokenSymbol) (asset : TokenSymbol ×ₗ Byte),
      st'.acc.getData .asset tokenSymbol = some asset → hasPerms asset 1 →
        Leftover st'.acc .asset st'.caches tokenSymbol → HasPermNow st'.acc st'.caches 1 tokenSymbol) := by
  obtain ⟨st', hrun⟩ : ∃ st', run AssetOp.step noAssets losePerm = some st' :=
    Option.isSome_iff_exists.mp (by decide +kernel)
  have hops : AllSteps AssetOp.step AssetOp.Allowed noAssets losePerm :=
    ⟨trivial, fun _ _ => ⟨trivial, fun _ _ => ⟨trivial, fun _ _ => ⟨trivial, fun _ _ => trivial⟩⟩⟩⟩
  exact ⟨st', hrun, getAssetTokensByPerm_iff noEntries_noAssets hops hrun 1⟩

end BigEndianKeys

end Inery
