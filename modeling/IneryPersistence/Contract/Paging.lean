import IneryPersistence.Contract.Data
import IneryPersistence.Iterator.Matching
import IneryPersistence.Iterator.Stored
import IneryPersistence.Lib.Paging

/-!
# Paging through the data of a contract

A page starts behind the last key of the page before. An empty last key stands for none, and the empty key is one
that a contract can store data under.

* `contractDataMatcher_eq`, `matchPrefix_iff`: the keys of a prefix;
* `storable_step`, **`storable_run`**: what every run leaves in the caches and the database;
* `EmptyKeyEndsPage`: the first page ends with the empty key;
* `contractData`, `mem_contractData`, `page`: the data of a prefix, and its pages;
* `page_behind`, **`resumes_page`**, `take_of_emptyKeyEndsPage`: where a page goes on, and where it does not;
* `seekUpper_enumerates`, `readPages_eq`: what the iterator reads;
* **`contract_data_paging`**: the pages are the data, unless the first page ends with the empty key.
-/

namespace Inery

open KV

/-! ## The keys of a prefix -/

section Matching

variable {n : ℕ} {pre key key' : ContractDataKey n}

theorem contractDataMatcher_eq (n : ℕ) : contractDataMatcher n = tailKeyMatcher IneryRegIDKey n := rfl

theorem matchPrefix_iff : (contractDataMatcher n).matchPrefix key pre = true ↔
    get0 key = get0 pre ∧ (ofLex pre).2.1 <+: (ofLex key).2.1 := tailKey_match_iff

theorem le_of_matchPrefix (h : (contractDataMatcher n).matchPrefix key pre = true) : pre ≤ key :=
  convex_tailKey.le_of_match h

theorem key_ext (hid : get0 key = get0 key') (htail : (ofLex key).2.1 = (ofLex key').2.1) : key = key' :=
  ofLex.injective (Prod.ext hid (Subtype.ext htail))

end Matching

/-! ## Runs -/

section Runs

variable [CompactSize] [LawfulCompactSize] [Serial IneryRegIDKey] [StreamSerial IneryRegIDKey]
  [DbUtil IneryRegIDKey] {n : ℕ}

/-- Other caches leave the records of the contract data. -/
def ContractDataOp.Allowed (st : CacheLevels (ContractDataKey n) Bytes) : LevelOp ContractDataOp → Prop
  | .cache _ _ => True
  | .database acc => SameRecords .contractData st.acc acc

theorem storable_step {st st' : CacheLevels (ContractDataKey n) Bytes} (hst : Storable .contractData st)
    {op : LevelOp ContractDataOp} (hop : ContractDataOp.Allowed st op) (h : ContractDataOp.step st op = some st') :
    Storable .contractData st' := by
  cases op with
  | database acc =>
    obtain rfl := Option.some.inj h
    exact storable_database hst hop
  | cache i op =>
    obtain ⟨cop, hcop, h⟩ := Option.bind_eq_some_iff.mp h
    refine storable_access hst ?_ h
    cases op with
    | flush =>
      obtain rfl := Option.some.inj hcop
      trivial
    | getContractData | hasContractData | setContractData | eraseContractData =>
      obtain ⟨key, -, rfl⟩ := Option.map_eq_some_iff.mp hcop
      trivial

/-- The caches are empty, and so are the records of the prefix. -/
structure NoData (st : CacheLevels (ContractDataKey n) Bytes) : Prop where
  caches : st.caches ≠ []
  mapData : ∀ c ∈ st.caches, c.mapData = ∅
  records : ∀ record ∈ st.acc.db.entries, ¬getKeyPrefix .contractData <+: record.1

omit [LawfulCompactSize] [StreamSerial IneryRegIDKey] in
theorem NoData.storable {st : CacheLevels (ContractDataKey n) Bytes} (h : NoData st) :
    Storable .contractData st where
  caches := h.caches
  wellStored record hr hpre := absurd hpre (h.records record hr)
  empty key _ := by
    have hdb : st.acc.getData (V := Bytes) .contractData key = none := by
      unfold CDBAccess.getData readDb
      cases hfind : st.acc.db.find? (genDbKey .contractData key) with
      | none => rfl
      | some v =>
        exact absurd (List.prefix_append _ _) (h.records _ (SortedMap.find?_eq_some_iff.mp hfind))
    have hclear : ∀ c ∈ st.caches, c.mapData.find? key = none := fun c hc => by
      rw [h.mapData c hc]
      rfl
    have hview := CacheStack.view_append_of_clear st.acc .contractData hclear []
    rw [List.append_nil] at hview
    rw [hview, CacheStack.view_nil, hdb]
    rfl

/-- **After every run** of the functions of `CContractDBCache`. -/
theorem storable_run {st st' : CacheLevels (ContractDataKey n) Bytes} (hst : NoData st)
    {ops : List (LevelOp ContractDataOp)} (hops : AllSteps ContractDataOp.step ContractDataOp.Allowed st ops)
    (h : run ContractDataOp.step st ops = some st') : Storable .contractData st' :=
  run_invariant ContractDataOp.step (fun _ _ _ hI hop hstep => storable_step hI hop hstep) hst.storable hops h

end Runs

/-- The first page ends with the empty key: the prefix is empty, the contract has data under the empty key, and
a page holds one entry or the contract has no other data. -/
structure EmptyKeyEndsPage {n : ℕ} (view : ContractDataKey n → Option Bytes) (prefixElement : ContractDataKey n)
    (pageSize : ℕ) : Prop where
  isEmpty : isEmpty (ofLex prefixElement).2 = true
  stored : (view prefixElement).isSome
  last : pageSize = 1 ∨ ∀ key, get0 key = get0 prefixElement → (view key).isSome → key = prefixElement

/-! ## The data of a prefix -/

theorem contractData_inUse : PrefixType.contractData.InUse := by decide

section Data

variable [CompactSize] [LawfulCompactSize] [Serial IneryRegIDKey] [StreamSerial IneryRegIDKey]
  [DbUtil IneryRegIDKey] {n : ℕ} (acc : CDBAccess) (s : CacheStack (ContractDataKey n) Bytes)
  (prefixElement : ContractDataKey n)

/-- The entries from a bound on, up to the first one without the prefix. -/
def contractDataFrom (bound : Bound (ContractDataKey n)) : List (ContractDataKey n × Bytes) :=
  (stackStream acc .contractData s bound).takeWhile fun e =>
    (contractDataMatcher n).matchPrefix e.1 prefixElement

/-- Where a page starts: an empty last key is none. -/
def pageBound : Option (CDBTailKey n) → Bound (ContractDataKey n)
  | none => (Start.seek (some prefixElement)).bound
  | some lastContractKey =>
    if isEmpty lastContractKey then (Start.seek (some prefixElement)).bound
    else .gt (toLex (get0 prefixElement, lastContractKey))

/-- The data of the prefix. -/
def contractData : List (ContractDataKey n × Bytes) :=
  contractDataFrom acc s prefixElement (pageBound prefixElement none)

/-- The page behind a last key. -/
def page (pageSize : ℕ) (pLastContractKey : Option (CDBTailKey n)) : List (ContractDataKey n × Bytes) :=
  (contractDataFrom acc s prefixElement (pageBound prefixElement pLastContractKey)).take pageSize

variable {acc s prefixElement}

omit [LawfulCompactSize] [StreamSerial IneryRegIDKey] in
theorem page_none (pageSize : ℕ) :
    page acc s prefixElement pageSize none = (contractData acc s prefixElement).take pageSize := rfl

omit [CompactSize] [LawfulCompactSize] [Serial IneryRegIDKey] [StreamSerial IneryRegIDKey] in
theorem pageBound_of_isEmpty {lastContractKey : CDBTailKey n} (h : isEmpty lastContractKey = true) :
    pageBound prefixElement (some lastContractKey) = pageBound prefixElement none := if_pos h

omit [CompactSize] [LawfulCompactSize] [Serial IneryRegIDKey] [StreamSerial IneryRegIDKey] in
theorem pageBound_of_not_isEmpty {lastContractKey : CDBTailKey n} (h : isEmpty lastContractKey = false) :
    pageBound prefixElement (some lastContractKey) = .gt (toLex (get0 prefixElement, lastContractKey)) :=
  if_neg (by rw [h]; exact Bool.false_ne_true)

omit [LawfulCompactSize] [StreamSerial IneryRegIDKey] in
theorem page_of_isEmpty {lastContractKey : CDBTailKey n} (h : isEmpty lastContractKey = true) (pageSize : ℕ) :
    page acc s prefixElement pageSize (some lastContractKey) = page acc s prefixElement pageSize none := by
  rw [page, pageBound_of_isEmpty h, page]

section Members

variable (hreg : SameOrder IneryRegIDKey) (hdb : WellStored (ContractDataKey n) Bytes acc .contractData)
  (hs : s ≠ [])

include hreg hdb hs

omit [DbUtil IneryRegIDKey] in
theorem mem_contractDataFrom {bound : Bound (ContractDataKey n)}
    (hbound : ∀ key, bound.Mem key → prefixElement ≤ key) :
    Ascending (contractDataFrom acc s prefixElement bound) ∧ ∀ key data,
      (key, data) ∈ contractDataFrom acc s prefixElement bound ↔
        (CacheStack.view acc .contractData s key = some data ∧ bound.Mem key) ∧
          (contractDataMatcher n).matchPrefix key prefixElement = true := by
  rw [contractDataFrom, contractDataMatcher_eq]
  exact mem_takeWhile_matchPrefix convex_tailKey contractData_inUse
    (sameOrder_prod hreg CDBTailKey.sameOrder_tailKey) hdb hs hbound

variable [LeastEmpty IneryRegIDKey]

variable (prefixElement) in
theorem mem_contractData : Ascending (contractData acc s prefixElement) ∧ ∀ key data,
    (key, data) ∈ contractData acc s prefixElement ↔
      CacheStack.view acc .contractData s key = some data ∧
        (contractDataMatcher n).matchPrefix key prefixElement = true := by
  have hbound : ∀ key, (pageBound prefixElement none).Mem key ↔ prefixElement ≤ key := fun _ => mem_bound_seek
  obtain ⟨hasc, hmem⟩ := mem_contractDataFrom hreg hdb hs fun key hkey => (hbound key).mp hkey
  refine ⟨hasc, fun key data => (hmem key data).trans ?_⟩
  rw [and_assoc, hbound]
  exact and_congr_right fun _ => and_iff_right_of_imp le_of_matchPrefix

theorem page_behind {l₁ l₂ : List (ContractDataKey n × Bytes)} {e : ContractDataKey n × Bytes}
    (hsplit : contractData acc s prefixElement = l₁ ++ e :: l₂) (he : isEmpty (ofLex e.1).2 = false)
    (pageSize : ℕ) : page acc s prefixElement pageSize (some (ofLex e.1).2) = l₂.take pageSize := by
  obtain ⟨hasc, hmem⟩ := mem_contractData prefixElement hreg hdb hs
  have hmatch := ((hmem e.1 e.2).mp (by rw [hsplit]; exact List.mem_append_right _ List.mem_cons_self)).2
  have hkey : toLex (get0 prefixElement, (ofLex e.1).2) = e.1 := by
    rw [← (matchPrefix_iff.mp hmatch).1]
    rfl
  have hbehind : ∀ key, (Bound.gt e.1).Mem key → prefixElement ≤ key := fun key hlt =>
    (le_of_matchPrefix hmatch).trans (le_of_lt hlt)
  obtain ⟨hasc', hmem'⟩ := mem_contractDataFrom hreg hdb hs hbehind
  rw [page, pageBound_of_not_isEmpty he, hkey]
  congr 1
  rw [hsplit] at hasc
  refine hasc'.ext hasc.behind fun x => ?_
  rw [hasc.mem_behind, ← hsplit]
  refine (hmem' x.1 x.2).trans ?_
  rw [and_right_comm, ← hmem]
  exact Iff.rfl

/-! ## The empty key -/

theorem eq_nil_of_isEmpty {l₁ l₂ : List (ContractDataKey n × Bytes)} {e : ContractDataKey n × Bytes}
    (hsplit : contractData acc s prefixElement = l₁ ++ e :: l₂) (he : isEmpty (ofLex e.1).2 = true) :
    l₁ = [] := by
  obtain ⟨hasc, hmem⟩ := mem_contractData prefixElement hreg hdb hs
  have hid : ∀ x ∈ contractData acc s prefixElement, get0 x.1 = get0 prefixElement := fun x hx =>
    (matchPrefix_iff.mp ((hmem x.1 x.2).mp hx).2).1
  rw [hsplit] at hasc hid
  refine List.eq_nil_iff_forall_not_mem.mpr fun x hx => ?_
  have hlt : x.1 < e.1 := (List.pairwise_append.mp hasc).2.2 x hx e List.mem_cons_self
  refine absurd (lex_le_iff.mpr (.inr ⟨?_, LeastEmpty.le_of_isEmpty _ he _⟩)) hlt.not_ge
  rw [hid x (List.mem_append_left _ hx), hid e (List.mem_append_right _ List.mem_cons_self)]

theorem resumes_page {pageSize : ℕ} (hsize : 1 ≤ pageSize)
    (h : ¬EmptyKeyEndsPage (CacheStack.view acc .contractData s) prefixElement pageSize) :
    KV.Resumes (fun e => (ofLex e.1).2) (page acc s prefixElement pageSize) pageSize
      (contractData acc s prefixElement) := by
  intro l₁ e l₂ hsplit hend
  cases he : isEmpty (ofLex e.1).2 with
  | false => exact page_behind hreg hdb hs hsplit he pageSize
  | true =>
    obtain ⟨-, hmem⟩ := mem_contractData prefixElement hreg hdb hs
    obtain ⟨hview, hmatch⟩ := (hmem e.1 e.2).mp (by rw [hsplit]; exact List.mem_append_right _ List.mem_cons_self)
    have hnil : (ofLex prefixElement).2.1 = [] := by
      have hpre := (matchPrefix_iff.mp hmatch).2
      rw [List.isEmpty_iff.mp he] at hpre
      exact List.prefix_nil.mp hpre
    have hkey : e.1 = prefixElement := key_ext (matchPrefix_iff.mp hmatch).1
      ((List.isEmpty_iff.mp he).trans hnil.symm)
    obtain rfl := eq_nil_of_isEmpty hreg hdb hs hsplit he
    refine absurd ⟨List.isEmpty_iff.mpr hnil, ?_, ?_⟩ h
    · rw [← hkey, hview]
      rfl
    · refine hend.imp (fun hle => le_antisymm hle hsize) fun hlast key hid hlive => ?_
      obtain ⟨data, hdata⟩ := Option.isSome_iff_exists.mp hlive
      have hin := (hmem key data).mpr ⟨hdata, matchPrefix_iff.mpr ⟨hid, hnil ▸ List.nil_prefix⟩⟩
      rw [hsplit, hlast] at hin
      exact (congrArg Prod.fst (List.mem_singleton.mp hin)).trans hkey

theorem take_of_emptyKeyEndsPage {pageSize : ℕ} (hsize : 1 ≤ pageSize)
    (h : EmptyKeyEndsPage (CacheStack.view acc .contractData s) prefixElement pageSize) :
    ∃ e, (contractData acc s prefixElement).take pageSize = [e] ∧ isEmpty (ofLex e.1).2 = true := by
  obtain ⟨hasc, hmem⟩ := mem_contractData prefixElement hreg hdb hs
  obtain ⟨data, hdata⟩ := Option.isSome_iff_exists.mp h.stored
  have hself := (hmem prefixElement data).mpr ⟨hdata, matchPrefix_iff.mpr ⟨rfl, List.prefix_rfl⟩⟩
  obtain ⟨l₁, l₂, hsplit⟩ := List.append_of_mem hself
  obtain rfl := eq_nil_of_isEmpty hreg hdb hs hsplit h.isEmpty
  refine ⟨(prefixElement, data), ?_, h.isEmpty⟩
  rw [hsplit] at hasc hmem ⊢
  rcases h.last with rfl | hlast
  · rfl
  · have hnil : l₂ = [] := List.eq_nil_iff_forall_not_mem.mpr fun x hx => by
      obtain ⟨hin, hlt⟩ := hasc.mem_behind.mp hx
      obtain ⟨hview, hmatch⟩ := (hmem x.1 x.2).mp hin
      have hkey := hlast x.1 (matchPrefix_iff.mp hmatch).1 (by rw [hview]; rfl)
      exact absurd hkey hlt.ne'
    rw [hnil]
    exact List.take_of_length_le hsize

end Members

end Data

/-! ## What the iterator reads -/

namespace CDBContractDataIterator

variable [CompactSize] [LawfulCompactSize] [Serial IneryRegIDKey] [StreamSerial IneryRegIDKey]
  [DbUtil IneryRegIDKey] {n : ℕ}

omit [CompactSize] [LawfulCompactSize] [Serial IneryRegIDKey] [StreamSerial IneryRegIDKey] in
theorem readUpTo_eq (it : CDBContractDataIterator n) {st : it.base.State}
    {l : List (ContractDataKey n × Bytes)} (h : it.base.Enumerates st l) (pageSize : ℕ) :
    ∃ st', it.readUpTo pageSize st = some (l.take pageSize, st') := by
  induction pageSize generalizing st l with
  | zero => exact ⟨st, rfl⟩
  | succ pageSize ih =>
    cases l with
    | nil =>
      refine ⟨st, ?_⟩
      rw [readUpTo, h.cur]
      rfl
    | cons e l =>
      obtain ⟨hcur, -, st₁, hnext, h'⟩ := h
      obtain ⟨st', hread⟩ := ih h'
      refine ⟨st', ?_⟩
      rw [readUpTo, hcur]
      dsimp only
      rw [hnext, Option.bind_some, hread]
      rfl

variable {acc : CDBAccess} {s : CacheStack (ContractDataKey n) Bytes} {prefixElement : ContractDataKey n}
  (hdb : WellStored (ContractDataKey n) Bytes acc .contractData)

include hdb

theorem seekUpper_enumerates {it : CDBContractDataIterator n}
    (hit : it = ⟨CacheStack.create acc .contractData s, prefixElement⟩)
    (lastContractKey : Option (CDBTailKey n)) (st : it.base.State) :
    ∃ st', it.seekUpper (lastContractKey.map Subtype.val) st = some st' ∧
      it.base.Enumerates st' (contractDataFrom acc s prefixElement (pageBound prefixElement lastContractKey)) := by
  subst hit
  have hstart : ∀ start st, ∃ st', (CacheStack.create acc .contractData s).begin start st = some st' ∧
      (prefixIterator (contractDataMatcher n) prefixElement (CacheStack.create acc .contractData s)).Enumerates st'
        (contractDataFrom acc s prefixElement start.bound) := by
    intro start st
    obtain ⟨st', hst', henum⟩ := CacheStack.create_yields contractData_inUse hdb s start st
    exact ⟨st', hst', enumerates_prefixIterator _ _ henum⟩
  cases lastContractKey with
  | none => exact hstart (.seek (some prefixElement)) st
  | some lastContractKey =>
    cases he : isEmpty lastContractKey with
    | true =>
      obtain ⟨st', hst', henum⟩ := hstart (.seek (some prefixElement)) st
      rw [pageBound_of_isEmpty he]
      exact ⟨st', (if_pos he).trans hst', henum⟩
    | false =>
      obtain ⟨st', hst', henum⟩ := hstart (.seekUpper (some (toLex (get0 prefixElement, lastContractKey)))) st
      rw [pageBound_of_not_isEmpty he]
      have hne : isEmpty (toLex (get0 prefixElement, lastContractKey) : ContractDataKey n) = false := by
        show (_ && isEmpty lastContractKey) = false
        rw [he, Bool.and_false]
      rw [Start.bound, if_neg (by rw [hne]; exact Bool.false_ne_true)] at henum
      refine ⟨st', ?_, henum⟩
      refine (if_neg ?_).trans ((dif_pos lastContractKey.2).trans hst')
      rw [show lastContractKey.1.isEmpty = false from he]
      exact Bool.false_ne_true

/-- **Page after page**, whatever each page is read with. -/
theorem readPages_eq {it : CDBContractDataIterator n}
    (hit : it = ⟨CacheStack.create acc .contractData s, prefixElement⟩) (pageSize : ℕ)
    (renew : it.base.State → it.base.State) (fuel : ℕ) (lastContractKey : Option (CDBTailKey n))
    (st : it.base.State) : it.readPages pageSize renew fuel (lastContractKey.map Subtype.val) st =
      KV.readPages (fun e => (ofLex e.1).2) (page acc s prefixElement pageSize) fuel lastContractKey := by
  induction fuel generalizing lastContractKey st with
  | zero => rfl
  | succ fuel ih =>
    obtain ⟨st₁, hseek, henum⟩ := seekUpper_enumerates hdb hit lastContractKey (renew st)
    obtain ⟨st₂, hread⟩ := readUpTo_eq it henum pageSize
    rw [readPages, hseek, Option.bind_some, hread, Option.bind_some, KV.readPages, page]
    dsimp only
    cases (List.take pageSize (contractDataFrom acc s prefixElement
      (pageBound prefixElement lastContractKey))).getLast? with
    | none => rfl
    | some e => exact congrArg (Option.map _) (ih (some (ofLex e.1).2) st₂)

end CDBContractDataIterator

section Main

variable [CompactSize] [LawfulCompactSize] [Serial IneryRegIDKey] [StreamSerial IneryRegIDKey]
  [DbUtil IneryRegIDKey] [LeastEmpty IneryRegIDKey] {n : ℕ}

/-- **When the first page ends with the empty key**, it is given again and again. -/
theorem readPages_eq_none_of_emptyKeyEndsPage (hreg : SameOrder IneryRegIDKey) {acc : CDBAccess}
    {s : CacheStack (ContractDataKey n) Bytes} (hdb : WellStored (ContractDataKey n) Bytes acc .contractData)
    (hs : s ≠ []) {prefixElement : ContractDataKey n} {pageSize : ℕ} (hsize : 1 ≤ pageSize)
    (hends : EmptyKeyEndsPage (CacheStack.view acc .contractData s) prefixElement pageSize)
    {it : CDBContractDataIterator n} (hit : it = ⟨CacheStack.create acc .contractData s, prefixElement⟩)
    (renew : it.base.State → it.base.State) (fuel : ℕ) (st₀ : it.base.State) :
    it.readPages pageSize renew fuel none st₀ = none := by
  obtain ⟨e, htake, he⟩ := take_of_emptyKeyEndsPage hreg hdb hs hsize hends
  have hlast : (page acc s prefixElement pageSize none).getLast? = some e := by
    rw [page_none, htake]
    rfl
  exact (CDBContractDataIterator.readPages_eq hdb hit pageSize renew fuel none st₀).trans
    (readPages_eq_none hlast (page_of_isEmpty he pageSize) fuel)

/-- **Page after page, each live entry of the contract under the prefix is read once**, in the order of the keys,
and then an empty page, unless the first page ends with the empty key. Account ids are ordered like their
serializations. -/
theorem contract_data_paging (hreg : SameOrder IneryRegIDKey) {st st' : CacheLevels (ContractDataKey n) Bytes}
    (hst : NoData st) {ops : List (LevelOp ContractDataOp)}
    (hops : AllSteps ContractDataOp.step ContractDataOp.Allowed st ops)
    (hrun : run ContractDataOp.step st ops = some st') (contractRegid : IneryRegID) {contractKeyPrefix : Bytes}
    (hkeySize : contractKeyPrefix.length ≤ n) {pageSize : ℕ} (hsize : 1 ≤ pageSize) :
    ∃ it : CDBContractDataIterator n,
      createContractDataIterator st'.acc st'.caches contractRegid contractKeyPrefix = some it ∧
        ∀ (renew : it.base.State → it.base.State) (st₀ : it.base.State),
          (∃ fuel pages, it.readPages pageSize renew fuel none st₀ = some pages ∧
            pages.flatten.Pairwise (fun e e' => e.1 < e'.1) ∧ pages.getLast? = some [] ∧
              ∀ key data, (key, data) ∈ pages.flatten ↔
                CacheStack.view st'.acc .contractData st'.caches key = some data ∧
                  get0 key = ⟨contractRegid⟩ ∧ contractKeyPrefix <+: (ofLex key).2.1) ↔
            ¬EmptyKeyEndsPage (CacheStack.view st'.acc .contractData st'.caches)
              (toLex (⟨contractRegid⟩, ⟨contractKeyPrefix, hkeySize⟩)) pageSize := by
  have hstored := storable_run hst hops hrun
  generalize hpre : (toLex (⟨contractRegid⟩, ⟨contractKeyPrefix, hkeySize⟩) : ContractDataKey n) = prefixElement
  refine ⟨⟨CacheStack.create st'.acc .contractData st'.caches, prefixElement⟩, ?_, fun renew st₀ => ?_⟩
  · rw [createContractDataIterator, contractDataKey, dif_pos hkeySize, hpre]
    rfl
  constructor
  · rintro ⟨fuel, pages, hpages, -⟩ hends
    have hnone := readPages_eq_none_of_emptyKeyEndsPage hreg hstored.wellStored hstored.caches hsize hends rfl
      renew fuel st₀
    exact absurd (hnone.symm.trans hpages) nofun
  · intro hends
    obtain ⟨hasc, hmem⟩ := mem_contractData prefixElement hreg hstored.wellStored hstored.caches
    obtain ⟨fuel, pages, hpages, hflat⟩ := exists_readPages hsize (page_none pageSize)
      (resumes_page hreg hstored.wellStored hstored.caches hsize hends)
    refine ⟨fuel, pages, ?_, hflat ▸ hasc, getLast?_readPages hpages, fun key data => ?_⟩
    · exact (CDBContractDataIterator.readPages_eq hstored.wellStored rfl pageSize renew fuel none st₀).trans hpages
    · rw [hflat, hmem, matchPrefix_iff, ← hpre]
      exact Iff.rfl

end Main

namespace BigEndianKeys

/-- Two caches over an empty database. -/
def noContractData : CacheLevels (ContractDataKey 8) Bytes :=
  ⟨⟨.contract, ∅⟩, [⟨∅, false, 0⟩, ⟨∅, true, 0⟩], fun _ => none⟩

theorem noData_noContractData : NoData noContractData := by
  refine ⟨List.cons_ne_nil _ _, fun c hc => ?_, fun record hr => absurd hr List.not_mem_nil⟩
  rcases List.mem_cons.mp hc with rfl | hc
  · rfl
  · rw [List.mem_singleton.mp hc]

/-- One entry for the database, one for the lower cache and one for the upper cache. -/
def threeEntries : List (LevelOp ContractDataOp) :=
  [.cache 0 (.setContractData (toLex (1, 1)) (bytesOf "ab") (bytesOf "x")), .cache 0 .flush, .cache 1 .flush,
    .cache 0 (.setContractData (toLex (1, 1)) (bytesOf "a") (bytesOf "y")), .cache 0 .flush,
    .cache 0 (.setContractData (toLex (1, 1)) (bytesOf "ac") (bytesOf "z"))]

/-- They are read one by one. -/
theorem contract_data_paging_three : ∃ st', run ContractDataOp.step noContractData threeEntries = some st' ∧
    ∃ it : CDBContractDataIterator 8,
      createContractDataIterator st'.acc st'.caches (toLex (1, 1)) (bytesOf "a") = some it ∧
        ∀ (renew : it.base.State → it.base.State) (st₀ : it.base.State),
          (∃ fuel pages, it.readPages 1 renew fuel none st₀ = some pages ∧
            pages.flatten.Pairwise (fun e e' => e.1 < e'.1) ∧ pages.getLast? = some [] ∧
              ∀ key data, (key, data) ∈ pages.flatten ↔
                CacheStack.view st'.acc .contractData st'.caches key = some data ∧
                  get0 key = ⟨toLex (1, 1)⟩ ∧ bytesOf "a" <+: (ofLex key).2.1) := by
  obtain ⟨st', hrun⟩ : ∃ st', run ContractDataOp.step noContractData threeEntries = some st' :=
    Option.isSome_iff_exists.mp (by decide +kernel)
  have hops : AllSteps ContractDataOp.step ContractDataOp.Allowed noContractData threeEntries :=
    ⟨trivial, fun _ _ => ⟨trivial, fun _ _ => ⟨trivial, fun _ _ => ⟨trivial, fun _ _ => ⟨trivial, fun _ _ =>
      ⟨trivial, fun _ _ => trivial⟩⟩⟩⟩⟩⟩
  have hkeySize : (bytesOf "a").length ≤ 8 := by decide
  obtain ⟨it, hit, hpages⟩ := contract_data_paging sameOrder_regid noData_noContractData hops hrun (toLex (1, 1))
    hkeySize (le_refl 1)
  refine ⟨st', hrun, it, hit, fun renew st₀ => (hpages renew st₀).mpr fun hends => ?_⟩
  exact Bool.false_ne_true hends.isEmpty

/-- Data under the empty key and under another one. -/
def emptyKeyFirst : List (LevelOp ContractDataOp) :=
  [.cache 0 (.setContractData (toLex (1, 1)) [] (bytesOf "x")),
    .cache 0 (.setContractData (toLex (1, 1)) (bytesOf "a") (bytesOf "y"))]

/-- Pages of one entry never come to the other one. -/
theorem contract_data_paging_emptyKey : ∃ st', run ContractDataOp.step noContractData emptyKeyFirst = some st' ∧
    ∃ it : CDBContractDataIterator 8,
      createContractDataIterator st'.acc st'.caches (toLex (1, 1)) [] = some it ∧
        (∀ pLastContractKey ∈ [none, some []], ((it.seekUpper pLastContractKey it.base.init).bind
          (it.readUpTo 1)).map (fun r => r.1.map CDBContractDataIterator.getContractKey) = some [[]]) ∧
        ∀ (renew : it.base.State → it.base.State) (fuel : ℕ) (st₀ : it.base.State),
          it.readPages 1 renew fuel none st₀ = none := by
  obtain ⟨st', hrun, hstored, hagain⟩ : ∃ st',
      run ContractDataOp.step noContractData emptyKeyFirst = some st' ∧
      (CacheStack.view st'.acc .contractData st'.caches
        (toLex (⟨toLex (1, 1)⟩, ⟨[], Nat.zero_le 8⟩))).isSome ∧
      ∀ pLastContractKey ∈ [none, some []], (((CDBContractDataIterator.seekUpper
        ⟨CacheStack.create st'.acc .contractData st'.caches, toLex (⟨toLex (1, 1)⟩, ⟨[], Nat.zero_le 8⟩)⟩
        pLastContractKey (CacheStack.create st'.acc .contractData st'.caches).init).bind
          (CDBContractDataIterator.readUpTo _ 1)).map
            (fun r => r.1.map CDBContractDataIterator.getContractKey) = some [[]]) :=
    ⟨_, rfl, by decide +kernel, by decide +kernel⟩
  have hops : AllSteps ContractDataOp.step ContractDataOp.Allowed noContractData emptyKeyFirst :=
    ⟨trivial, fun _ _ => ⟨trivial, fun _ _ => trivial⟩⟩
  have hst' := storable_run noData_noContractData hops hrun
  exact ⟨st', hrun, _, rfl, hagain, fun renew fuel st₀ => readPages_eq_none_of_emptyKeyEndsPage sameOrder_regid
    hst'.wellStored hst'.caches (le_refl 1) ⟨rfl, hstored, .inl rfl⟩ rfl renew fuel st₀⟩

end BigEndianKeys

end Inery
