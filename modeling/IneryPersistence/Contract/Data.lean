import IneryPersistence.Cache.Kept
import IneryPersistence.Cdp.Keys
import IneryPersistence.Db.TailKey
import IneryPersistence.Iterator.Prefixed

/-!
# The data of the contracts

`contractDataCache` keeps the data of all contracts under pairs of contract id and contract key. The iterator over
the data of a contract stops at the first key without its prefix, and can be moved behind a key.

* `ContractDataKey`, `contractDataMatcher`: the keys, and the partial match on them;
* `ContractDataOp`, `step`: the functions of `CContractDBCache` on the caches of a stack;
* `CDBContractDataIterator`, `createContractDataIterator`, `seekUpper`;
* `readUpTo`, `readPages`: one page, and page after page.
-/

namespace Inery

open KV

/-- Contract id and contract key: the key of `DBContractDataCache`. -/
abbrev ContractDataKey (maxKeySize : ℕ) := IneryRegIDKey ×ₗ CDBTailKey maxKeySize

/-- The pair of `IneryRegIDKey(contractRegId)` and `contractKey`; `none` when the assertion on its size fails. -/
def contractDataKey (n : ℕ) (contractRegId : IneryRegID) (contractKey : Bytes) : Option (ContractDataKey n) :=
  if h : contractKey.length ≤ n then some (toLex (⟨contractRegId⟩, ⟨contractKey, h⟩)) else none

/-- The `CommonPrefixMatcher` of a pair and a pair whose second element may match in part. -/
def contractDataMatcher (n : ℕ) : PrefixMatcher (ContractDataKey n) (ContractDataKey n) where
  makeKeyByPrefix pre := pre
  matchPrefix key pre := get0 key = get0 pre ∧ (ofLex key).2.startWith (ofLex pre).2.1

/-- What the functions of a `CContractDBCache` do to the contract data. -/
inductive ContractDataOp
  | getContractData (contractRegId : IneryRegID) (contractKey : Bytes)
  | hasContractData (contractRegId : IneryRegID) (contractKey : Bytes)
  | setContractData (contractRegId : IneryRegID) (contractKey contractData : Bytes)
  | eraseContractData (contractRegId : IneryRegID) (contractKey : Bytes)
  | flush

/-- The operation on the cache. -/
def ContractDataOp.cacheOp (n : ℕ) : ContractDataOp → Option (CacheOp (ContractDataKey n) Bytes)
  | getContractData contractRegId contractKey => (contractDataKey n contractRegId contractKey).map .getData
  | hasContractData contractRegId contractKey => (contractDataKey n contractRegId contractKey).map .hasData
  | setContractData contractRegId contractKey contractData =>
    (contractDataKey n contractRegId contractKey).map fun key => .setData key contractData
  | eraseContractData contractRegId contractKey => (contractDataKey n contractRegId contractKey).map .eraseData
  | flush => some .flush

/-- A `CDBContractDataIterator`. -/
structure CDBContractDataIterator (n : ℕ) where
  spItImpl : CDBBaseIterator (ContractDataKey n) Bytes
  prefixElement : ContractDataKey n

section Model

variable [CompactSize] [Serial IneryRegIDKey] [DbUtil IneryRegIDKey] {n : ℕ}

/-- One function on the cache of a level, or what other caches do to the database. -/
def ContractDataOp.step (st : CacheLevels (ContractDataKey n) Bytes) :
    LevelOp ContractDataOp → Option (CacheLevels (ContractDataKey n) Bytes)
  | .cache i op => (op.cacheOp n).bind fun op => CacheLevels.step .contractData st (.cache i op)
  | .database acc => CacheLevels.step .contractData st (.database acc)

/-- `CreateContractDataIterator`: there is none for a prefix that is too long. -/
def createContractDataIterator (acc : CDBAccess) (contractDataCache : CacheStack (ContractDataKey n) Bytes)
    (contractRegid : IneryRegID) (contractKeyPrefix : Bytes) : Option (CDBContractDataIterator n) :=
  (contractDataKey n contractRegid contractKeyPrefix).map fun prefixElement =>
    ⟨CacheStack.create acc .contractData contractDataCache, prefixElement⟩

namespace CDBContractDataIterator

variable (it : CDBContractDataIterator n)

/-- The `CDBPrefixIterator` that it is. -/
def base : CDBBaseIterator (ContractDataKey n) Bytes :=
  prefixIterator (contractDataMatcher n) it.prefixElement it.spItImpl

/-- `SeekUpper`: without a last key, or with an empty one, the first entry; a key that is too long moves
nothing. -/
def seekUpper (pLastContractKey : Option Bytes) (st : it.base.State) : Option it.base.State :=
  match pLastContractKey with
  | none => it.base.first st
  | some lastContractKey =>
    if lastContractKey.isEmpty then it.base.first st
    else if h : lastContractKey.length ≤ n then
      it.spItImpl.seekUpper (some (toLex (get0 it.prefixElement, ⟨lastContractKey, h⟩))) st
    else some st

/-- `IsValid` and `Next`, for a page of at most `pageSize` entries. -/
def readUpTo : ℕ → it.base.State → Option (List (ContractDataKey n × Bytes) × it.base.State)
  | 0, st => some ([], st)
  | pageSize + 1, st =>
    match it.base.cur st with
    | none => some ([], st)
    | some e => (it.base.next st).bind fun st => (readUpTo pageSize st).map fun r => (e :: r.1, r.2)

/-- `GetContractKey`. -/
def getContractKey (e : ContractDataKey n × Bytes) : Bytes := (ofLex e.1).2.1

/-- Page after page, the first one without a last key and each other one from the last key of the page before, up
to an empty one. `renew` says what a page is read with: the iterator as it stands, or a new one. -/
def readPages (pageSize : ℕ) (renew : it.base.State → it.base.State) :
    ℕ → Option Bytes → it.base.State → Option (List (List (ContractDataKey n × Bytes)))
  | 0, _, _ => none
  | fuel + 1, pLastContractKey, st =>
    (it.seekUpper pLastContractKey (renew st)).bind fun st => (it.readUpTo pageSize st).bind fun r =>
      match r.1.getLast? with
      | none => some [r.1]
      | some e => (readPages pageSize renew fuel (some (getContractKey e)) r.2).map (r.1 :: ·)

end CDBContractDataIterator

end Model

end Inery
