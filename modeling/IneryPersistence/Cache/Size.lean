import IneryPersistence.Cache.Kept
import IneryPersistence.Lib.Weight

/-!
# The size of a composite cache

A cache on a database counts the bytes of its entries as it goes. What its own functions, and those of the caches
above it, do to its entries is a list of writes.

* `dataSize`, `Counted`: the bytes of the entries, and a cache that counts them right;
* `EntryWrite`, `Fits`, `Exact`: one write, when the count of 32 bits has room for it, and when it loses nothing;
* `fits_iff`: the room is for the sum of the entries, with the value that comes in and after the write;
* **`counted_apply`**, `exact_apply`, `counted_foldl`: writes with room keep the count right and lose nothing;
* `readWrites`, `CacheOp.rootWrites`: the writes that an operation at some level makes at the lowest one;
* **`getLast?_apply`**, `getLast?_step`: these are all it does there.
-/

namespace Inery

open KV

section Size

variable {K V : Type} [LinearOrder K] [Serial K] [Serial V]

/-- The bytes of an entry. -/
def entrySize (key : K) (value : V) : ℕ := (ser key).length + (ser value).length

/-- The bytes of all entries. -/
def dataSize (mapData : SortedMap K V) : ℕ := mapData.weight entrySize

/-- `GetCacheSize`. -/
def IneryCompositeKVCache.getCacheSize (c : IneryCompositeKVCache K V) : UInt32 := c.size

/-- The size of the cache is that of its entries. -/
structure IneryCompositeKVCache.Counted (c : IneryCompositeKVCache K V) : Prop where
  isCalcSize : c.isCalcSize = true
  size : c.size.toNat = dataSize c.mapData

/-- What happens to the entries of a cache: a value is put under a key, a live one is set empty, or all go. -/
inductive EntryWrite (K V : Type)
  | put (key : K) (value : V)
  | empty (key : K)
  | clear

/-- The value that `EraseData` finds live, and with what it is replaced. -/
def erased [DbUtil V] (mapData : SortedMap K V) (key : K) : Option (V × V) :=
  (live (mapData.find? key)).map fun old => (old, setEmpty old)

/-- A write, with its bookkeeping. -/
def EntryWrite.apply [DbUtil V] (c : IneryCompositeKVCache K V) : EntryWrite K V → IneryCompositeKVCache K V
  | put key value => c.setDataToSelf key value
  | empty key =>
    match erased c.mapData key with
    | some (old, new) => ((c.decDataSize old).assign key new).incValueSize new
    | none => c
  | clear => c.clear

/-- The count has room: for the sum with the value that comes in, before the one it replaces is taken off. -/
def EntryWrite.Fits [DbUtil V] (mapData : SortedMap K V) : EntryWrite K V → Prop
  | put key value =>
    dataSize mapData + (if (mapData.find? key).isSome then (ser value).length else entrySize key value) < 2 ^ 32
  | empty key => ∀ r ∈ erased mapData key, dataSize (mapData.insert key r.2) < 2 ^ 32
  | clear => True

/-- The count has room for one write after the other. -/
def FitsAll [DbUtil V] : IneryCompositeKVCache K V → List (EntryWrite K V) → Prop
  | _, [] => True
  | c, w :: ws => w.Fits c.mapData ∧ FitsAll (w.apply c) ws

/-- The guarded subtraction of the write loses nothing: what is taken off is there, and no sum has wrapped around. -/
def EntryWrite.Exact [DbUtil V] (c : IneryCompositeKVCache K V) : EntryWrite K V → Prop
  | put key value => ∀ old ∈ c.mapData.find? key,
    (c.updateDataSize old value).size.toNat + (ser old).length = c.size.toNat + (ser value).length
  | empty key => ∀ r ∈ erased c.mapData key, (c.decDataSize r.1).size.toNat + (ser r.1).length = c.size.toNat
  | clear => True

/-- The subtractions of one write after the other. -/
def ExactAll [DbUtil V] : IneryCompositeKVCache K V → List (EntryWrite K V) → Prop
  | _, [] => True
  | c, w :: ws => w.Exact c ∧ ExactAll (w.apply c) ws

/-- The bytes that come in while what they replace is still counted. -/
def EntryWrite.incoming : EntryWrite K V → ℕ
  | put _ value => (ser value).length
  | empty _ | clear => 0

theorem toNat_calcDataSize {A : Type} [Serial A] {d : A} (h : (ser d).length < 2 ^ 32) :
    (calcDataSize d).toNat = (ser d).length :=
  (UInt32.toNat_ofNat').trans (Nat.mod_eq_of_lt h)

variable {c : IneryCompositeKVCache K V} {key : K} {value old : V}

theorem counted_addDataToMap (hc : c.Counted) (hkey : c.mapData.find? key = none)
    (hfits : dataSize c.mapData + entrySize key value < 2 ^ 32) : (c.addDataToMap key value).Counted := by
  have hsize := hc.size
  have hinsert : dataSize (c.mapData.insert key value) = dataSize c.mapData + entrySize key value :=
    SortedMap.weight_insert_of_none entrySize hkey value
  unfold entrySize at hfits hinsert
  have hk := toNat_calcDataSize (d := key) (by omega)
  have hv := toNat_calcDataSize (d := value) (by omega)
  refine ⟨?_, ?_⟩
  · rw [IneryCompositeKVCache.addDataToMap, IneryCompositeKVCache.incDataSize, if_pos hc.isCalcSize]
    exact hc.isCalcSize
  · rw [IneryCompositeKVCache.addDataToMap_mapData, hinsert, IneryCompositeKVCache.addDataToMap,
      IneryCompositeKVCache.incDataSize, if_pos hc.isCalcSize]
    show (c.size + calcDataSize key + calcDataSize value).toNat = _
    rw [UInt32.toNat_add, UInt32.toNat_add, hk, hv, hsize]
    omega

theorem dataSize_replace {mapData : SortedMap K V} (hkey : mapData.find? key = some old) (value : V) :
    (ser old).length ≤ dataSize mapData ∧
      dataSize (mapData.insert key value) + (ser old).length = dataSize mapData + (ser value).length := by
  have hle : entrySize key old ≤ dataSize mapData := SortedMap.le_weight entrySize hkey
  have hinsert : dataSize (mapData.insert key value) + entrySize key old = dataSize mapData + entrySize key value :=
    SortedMap.weight_insert_of_some entrySize hkey value
  unfold entrySize at hle hinsert
  omega

omit [LinearOrder K] [Serial K] [Serial V] in
theorem toNat_guarded {size sz : UInt32} (h : sz.toNat ≤ size.toNat) :
    (if size > sz then size - sz else 0).toNat = size.toNat - sz.toNat := by
  split_ifs with hlt
  · exact UInt32.toNat_sub_of_le _ _ (UInt32.le_iff_toNat_le.mpr h)
  · have hle : size.toNat ≤ sz.toNat := not_lt.mp hlt
    rw [Nat.sub_eq_zero_of_le hle]
    rfl

omit [Serial K] in
theorem isCalcSize_updateDataSize : (c.updateDataSize old value).isCalcSize = c.isCalcSize := by
  unfold IneryCompositeKVCache.updateDataSize
  split_ifs <;> rfl

theorem exact_updateDataSize (hc : c.Counted) (hkey : c.mapData.find? key = some old)
    (hfits : dataSize c.mapData + (ser value).length < 2 ^ 32) :
    (c.updateDataSize old value).size.toNat + (ser old).length = c.size.toNat + (ser value).length := by
  have hsize := hc.size
  obtain ⟨hle, -⟩ := dataSize_replace hkey value
  have hv := toNat_calcDataSize (d := value) (by omega)
  have hold := toNat_calcDataSize (d := old) (by omega)
  have hadd : (c.size + calcDataSize value).toNat = dataSize c.mapData + (ser value).length := by
    rw [UInt32.toNat_add, hv, hsize]
    omega
  unfold IneryCompositeKVCache.updateDataSize
  rw [if_pos hc.isCalcSize]
  show (if c.size + calcDataSize value > calcDataSize old then c.size + calcDataSize value - calcDataSize old
    else 0).toNat + (ser old).length = _
  rw [toNat_guarded (by omega), hadd, hold]
  omega

theorem counted_updateDataSize (hc : c.Counted) (hkey : c.mapData.find? key = some old)
    (hfits : dataSize c.mapData + (ser value).length < 2 ^ 32) :
    ((c.updateDataSize old value).assign key value).Counted := by
  have hsize := hc.size
  have hexact := exact_updateDataSize hc hkey hfits
  obtain ⟨-, hreplace⟩ := dataSize_replace hkey value
  refine ⟨isCalcSize_updateDataSize.trans hc.isCalcSize, ?_⟩
  show (c.updateDataSize old value).size.toNat =
    dataSize ((c.updateDataSize old value).assign key value).mapData
  rw [IneryCompositeKVCache.assign_mapData, IneryCompositeKVCache.updateDataSize_mapData]
  omega

/-- Without room for both values at once the sum wraps around, and the guard makes it 0. -/
theorem size_updateDataSize_overflow (hc : c.Counted) (hkey : c.mapData.find? key = some old)
    (hroom : 2 ^ 32 ≤ dataSize c.mapData + (ser value).length)
    (hlt : dataSize (c.mapData.insert key value) < 2 ^ 32) : (c.updateDataSize old value).size = 0 := by
  have hsize := hc.size
  have hbound := c.size.toNat_lt
  obtain ⟨hle, hreplace⟩ := dataSize_replace hkey value
  have hv := toNat_calcDataSize (d := value) (by omega)
  have hold := toNat_calcDataSize (d := old) (by omega)
  have hadd : (c.size + calcDataSize value).toNat = dataSize c.mapData + (ser value).length - 2 ^ 32 := by
    rw [UInt32.toNat_add, hv, hsize]
    omega
  unfold IneryCompositeKVCache.updateDataSize
  rw [if_pos hc.isCalcSize]
  refine if_neg fun hgt => ?_
  have hcmp : (calcDataSize old).toNat < (c.size + calcDataSize value).toNat := hgt
  omega

theorem exact_decDataSize (hc : c.Counted) (hkey : c.mapData.find? key = some old) :
    (c.decDataSize old).size.toNat + (ser old).length = c.size.toNat := by
  have hsize := hc.size
  have hlt := c.size.toNat_lt
  obtain ⟨hle, -⟩ := dataSize_replace hkey old
  have hold := toNat_calcDataSize (d := old) (by omega)
  unfold IneryCompositeKVCache.decDataSize
  rw [if_pos hc.isCalcSize]
  show (if c.size > calcDataSize old then c.size - calcDataSize old else 0).toNat + (ser old).length = _
  rw [toNat_guarded (by omega), hold]
  omega

theorem counted_erase {new : V} (hc : c.Counted) (hkey : c.mapData.find? key = some old)
    (hfits : dataSize (c.mapData.insert key new) < 2 ^ 32) :
    (((c.decDataSize old).assign key new).incValueSize new).Counted := by
  have hsize := hc.size
  have hexact := exact_decDataSize hc hkey
  obtain ⟨hle, hreplace⟩ := dataSize_replace hkey new
  have hnew := toNat_calcDataSize (d := new) (by omega)
  have hcalc : ((c.decDataSize old).assign key new).isCalcSize = true := by
    unfold IneryCompositeKVCache.decDataSize
    rw [if_pos hc.isCalcSize]
    exact hc.isCalcSize
  refine ⟨?_, ?_⟩
  · unfold IneryCompositeKVCache.incValueSize
    rw [if_pos hcalc]
    exact hcalc
  · rw [IneryCompositeKVCache.incValueSize_mapData, IneryCompositeKVCache.assign_mapData,
      IneryCompositeKVCache.decDataSize_mapData, IneryCompositeKVCache.incValueSize, if_pos hcalc]
    show ((c.decDataSize old).size + calcDataSize new).toNat = _
    rw [UInt32.toNat_add, hnew]
    omega

variable [DbUtil V]

/-- **A write for which there is room** keeps the count right. -/
theorem counted_apply (hc : c.Counted) {w : EntryWrite K V} (hfits : w.Fits c.mapData) : (w.apply c).Counted := by
  cases w with
  | put key value =>
    rw [EntryWrite.Fits] at hfits
    show (c.setDataToSelf key value).Counted
    unfold IneryCompositeKVCache.setDataToSelf
    cases hkey : c.mapData.find? key with
    | none =>
      rw [hkey, Option.isSome_none, if_neg Bool.false_ne_true] at hfits
      exact counted_addDataToMap hc hkey hfits
    | some old =>
      rw [hkey, Option.isSome_some, if_pos rfl] at hfits
      exact counted_updateDataSize hc hkey hfits
  | empty key =>
    rw [EntryWrite.apply]
    cases herased : erased c.mapData key with
    | none => exact hc
    | some r =>
      obtain ⟨old, hold, rfl⟩ := Option.map_eq_some_iff.mp herased
      exact counted_erase hc (live_eq_some_iff.mp hold).1 (hfits _ herased)
  | clear => exact ⟨hc.isCalcSize, rfl⟩

theorem exact_apply (hc : c.Counted) {w : EntryWrite K V} (hfits : w.Fits c.mapData) : w.Exact c := by
  cases w with
  | put key value =>
    rw [EntryWrite.Fits] at hfits
    intro old hkey
    have hsome : (c.mapData.find? key).isSome := Option.isSome_iff_exists.mpr ⟨old, hkey⟩
    rw [if_pos hsome] at hfits
    exact exact_updateDataSize hc hkey hfits
  | empty key =>
    intro r herased
    obtain ⟨old, hold, rfl⟩ := Option.map_eq_some_iff.mp herased
    exact exact_decDataSize hc (live_eq_some_iff.mp hold).1
  | clear => trivial

/-- **There is room** exactly if the sum of the entries, with the value that comes in and after the write, does. -/
theorem fits_iff (hc : c.Counted) {w : EntryWrite K V} :
    w.Fits c.mapData ↔ dataSize c.mapData + w.incoming < 2 ^ 32 ∧ dataSize (w.apply c).mapData < 2 ^ 32 := by
  have hsum : dataSize c.mapData < 2 ^ 32 := hc.size ▸ c.size.toNat_lt
  cases w with
  | put key value =>
    show _ ↔ dataSize c.mapData + (ser value).length < 2 ^ 32 ∧ dataSize (c.setDataToSelf key value).mapData < 2 ^ 32
    rw [IneryCompositeKVCache.setDataToSelf_mapData, EntryWrite.Fits]
    cases hkey : c.mapData.find? key with
    | none =>
      have hinsert : dataSize (c.mapData.insert key value) = dataSize c.mapData + entrySize key value :=
        SortedMap.weight_insert_of_none entrySize hkey value
      unfold entrySize at hinsert ⊢
      simp only [Option.isSome_none, Bool.false_eq_true, if_false]
      omega
    | some old =>
      obtain ⟨hle, hreplace⟩ := dataSize_replace hkey value
      simp only [Option.isSome_some, if_true]
      omega
  | empty key =>
    rw [EntryWrite.Fits, EntryWrite.apply, EntryWrite.incoming]
    cases herased : erased c.mapData key with
    | none => exact iff_of_true nofun ⟨hsum, hsum⟩
    | some r =>
      dsimp only
      rw [IneryCompositeKVCache.incValueSize_mapData, IneryCompositeKVCache.assign_mapData,
        IneryCompositeKVCache.decDataSize_mapData]
      refine ⟨fun h => ⟨hsum, h r rfl⟩, fun h r' hr => ?_⟩
      obtain rfl := Option.some.inj hr
      exact h.2
  | clear => exact iff_of_true trivial ⟨hsum, show 0 < 2 ^ 32 by decide⟩

theorem counted_foldl (hc : c.Counted) {ws : List (EntryWrite K V)} (hfits : FitsAll c ws) :
    (ws.foldl EntryWrite.apply c).Counted := by
  induction ws generalizing c with
  | nil => exact hc
  | cons w ws ih => exact ih (counted_apply hc hfits.1) hfits.2

theorem exactAll_of_fitsAll (hc : c.Counted) {ws : List (EntryWrite K V)} (hfits : FitsAll c ws) :
    ExactAll c ws := by
  induction ws generalizing c with
  | nil => trivial
  | cons w ws ih => exact ⟨exact_apply hc hfits.1, ih (counted_apply hc hfits.1) hfits.2⟩

end Size

/-! ## The lowest cache -/

section Root

variable {K V : Type} [LinearOrder K] [Serial K] [DbUtil K] [Serial V] [DbUtil V]

/-- What a read writes to the lowest cache: what the database has, when no cache on the way has the key. -/
def CacheStack.readWrites (acc : CDBAccess) (p : PrefixType) (key : K) : CacheStack K V → List (EntryWrite K V)
  | [] => []
  | c :: base =>
    if (c.mapData.find? key).isSome then []
    else if base.isEmpty then (acc.getData p key).toList.map (EntryWrite.put key)
    else readWrites acc p key base

/-- What an operation of the cache `c` over `base` writes to the lowest of these caches. -/
def CacheOp.rootWrites (acc : CDBAccess) (p : PrefixType) (c : IneryCompositeKVCache K V) (base : CacheStack K V) :
    CacheOp K V → List (EntryWrite K V)
  | getData key | hasData key => if isEmpty key then [] else CacheStack.readWrites acc p key (c :: base)
  | setData key value =>
    if isEmpty key then []
    else CacheStack.readWrites acc p key (c :: base) ++ if base.isEmpty then [.put key value] else []
  | eraseData key =>
    if isEmpty key then []
    else CacheStack.readWrites acc p key (c :: base) ++ if base.isEmpty then [.empty key] else []
  | undoData dbOpLog =>
    if base.isEmpty then ((unser dbOpLog.key).bind fun key => (unser dbOpLog.value).map fun value =>
      EntryWrite.put key.1 value.1).toList
    else []
  | clear => if base.isEmpty then [.clear] else []
  | flush =>
    match base with
    | [] => [.clear]
    | [_] => c.mapData.entries.map fun e => .put e.1 e.2
    | _ :: _ :: _ => []

/-- What an operation writes to the lowest cache of the levels. -/
def CacheLevels.rootWrites (p : PrefixType) (st : CacheLevels K V) : LevelOp (CacheOp K V) → List (EntryWrite K V)
  | .cache i op =>
    match st.caches.drop i with
    | c :: base => op.rootWrites st.acc p c base
    | [] => []
  | .database _ => []

variable {acc : CDBAccess} {p : PrefixType} {key : K} {c : IneryCompositeKVCache K V} {value : V}

omit [DbUtil K] [DbUtil V] in
theorem IneryCompositeKVCache.setDataToSelf_of_none (h : c.mapData.find? key = none) (value : V) :
    c.setDataToSelf key value = c.addDataToMap key value := by
  rw [IneryCompositeKVCache.setDataToSelf, h]

omit [DbUtil K] [DbUtil V] in
theorem IneryCompositeKVCache.setDataToSelf_of_some {old : V} (h : c.mapData.find? key = some old) (value : V) :
    c.setDataToSelf key value = (c.updateDataSize old value).assign key value := by
  rw [IneryCompositeKVCache.setDataToSelf, h]

namespace CacheStack

omit [DbUtil K] in
/-- **A read** copies into the lowest cache only what it found in the database. -/
theorem getLast?_getDataIt (acc : CDBAccess) (p : PrefixType) (key : K) (s : CacheStack K V) :
    (getDataIt acc p key s).1.getLast? = s.getLast?.map ((readWrites acc p key s).foldl EntryWrite.apply) := by
  induction s with
  | nil => rfl
  | cons c s ih =>
    rw [getDataIt, readWrites]
    cases hc : c.mapData.find? key with
    | some v =>
      rw [Option.isSome_some, if_pos rfl]
      exact Option.map_id'.symm
    | none =>
      rw [Option.isSome_none, if_neg Bool.false_ne_true]
      cases s with
      | nil =>
        rw [List.isEmpty_nil, if_pos rfl]
        have hnil : getDataIt acc p key ([] : CacheStack K V) = ([], acc.getData p key) := rfl
        rw [hnil]
        cases hdb : acc.getData (K := K) (V := V) p key with
        | none => rfl
        | some v => exact congrArg some (IneryCompositeKVCache.setDataToSelf_of_none hc v).symm
      | cons b s =>
        obtain ⟨b', s', hit, -, -⟩ := find?_getDataIt acc p key b s
        rcases hr : getDataIt acc p key (b :: s) with ⟨s₁, o⟩
        rw [hr] at ih hit
        obtain rfl : s₁ = b' :: s' := hit
        rw [List.isEmpty_cons, if_neg Bool.false_ne_true, List.getLast?_cons_cons, ← ih]
        cases o <;> rfl

omit [DbUtil K] in
theorem getDataIt_singleton (acc : CDBAccess) (p : PrefixType) (key : K) (c : IneryCompositeKVCache K V) :
    (getDataIt acc p key [c]).1 = [(readWrites acc p key [c]).foldl EntryWrite.apply c] := by
  have hlast := getLast?_getDataIt acc p key [c]
  have hlen := length_getDataIt acc p key [c]
  obtain ⟨c', hc'⟩ := List.length_eq_one_iff.mp hlen
  rw [hc'] at hlast ⊢
  exact congrArg (fun c => [c]) (Option.some.inj hlast)

omit [DbUtil K] in
theorem find?_readWrites (acc : CDBAccess) (p : PrefixType) (key : K) (c : IneryCompositeKVCache K V) :
    ((readWrites acc p key [c]).foldl EntryWrite.apply c).mapData.find? key = (getDataIt acc p key [c]).2 := by
  obtain ⟨c', s', hit, hfind, -⟩ := find?_getDataIt acc p key c []
  rw [getDataIt_singleton] at hit
  obtain ⟨rfl, -⟩ := List.cons.inj hit
  rw [hfind, getDataIt_snd]

theorem setData_singleton (hkey : isEmpty key = false) (log : Option CDBOpLogMap) (c : IneryCompositeKVCache K V)
    (value : V) : (setData acc p log [c] key value).1 =
      [(readWrites acc p key [c] ++ [EntryWrite.put key value]).foldl EntryWrite.apply c] := by
  have hit := getDataIt_singleton acc p key c
  have hfind := find?_readWrites acc p key c
  rw [setData, if_neg (by rw [hkey]; exact Bool.false_ne_true), List.foldl_append]
  rcases hr : getDataIt acc p key [c] with ⟨s₁, o⟩
  rw [hr] at hit hfind
  simp only at hit hfind
  subst hit
  cases o with
  | none => exact congrArg (fun c => [c]) (IneryCompositeKVCache.setDataToSelf_of_none hfind value).symm
  | some old => exact congrArg (fun c => [c]) (IneryCompositeKVCache.setDataToSelf_of_some hfind value).symm

theorem eraseData_singleton (hkey : isEmpty key = false) (log : Option CDBOpLogMap) (c : IneryCompositeKVCache K V) :
    (eraseData acc p log [c] key).1 =
      [(readWrites acc p key [c] ++ [EntryWrite.empty key]).foldl EntryWrite.apply c] := by
  have hit := getDataIt_singleton acc p key c
  have hfind := find?_readWrites acc p key c
  rw [eraseData, if_neg (by rw [hkey]; exact Bool.false_ne_true), List.foldl_append]
  rcases hr : getDataIt acc p key [c] with ⟨s₁, o⟩
  rw [hr] at hit hfind
  simp only at hit hfind
  subst hit
  rw [List.foldl_cons, List.foldl_nil, EntryWrite.apply, erased, hfind]
  cases o with
  | none => rfl
  | some old =>
    cases he : isEmpty old with
    | true =>
      rw [live_of_isEmpty he]
      simp only [he, if_true, Option.map_none]
    | false =>
      rw [live_of_not_isEmpty he]
      simp only [he, Bool.false_eq_true, if_false, Option.map_some]

omit [DbUtil K] [DbUtil V] in
/-- **Above the lowest cache**, what comes in the place of the first one after a read leaves what the read made. -/
theorem getLast?_replace_head {c₁ : IneryCompositeKVCache K V} {b : IneryCompositeKVCache K V}
    {base s : CacheStack K V}
    (hit : (getDataIt acc p key (c :: b :: base)).1 = c₁ :: s) (c₂ : IneryCompositeKVCache K V) :
    (c₂ :: s).getLast? = (getDataIt acc p key (c :: b :: base)).1.getLast? := by
  have hlen := length_getDataIt acc p key (c :: b :: base)
  rw [hit] at hlen
  have hs : s ≠ [] := List.ne_nil_of_length_eq_add_one (Nat.succ.inj hlen)
  rw [hit, List.getLast?_cons_of_ne_nil hs, List.getLast?_cons_of_ne_nil hs]

theorem getLast?_setData (hkey : isEmpty key = false) (log : Option CDBOpLogMap) (c b : IneryCompositeKVCache K V)
    (base : CacheStack K V) (value : V) : (setData acc p log (c :: b :: base) key value).1.getLast? =
      (getDataIt acc p key (c :: b :: base)).1.getLast? := by
  obtain ⟨c₁, c₂, s', hit, -, hset⟩ := setData_cons acc p hkey log c (b :: base) value
  rw [hset]
  exact getLast?_replace_head hit c₂

theorem getLast?_eraseData (hkey : isEmpty key = false) (log : Option CDBOpLogMap) (c b : IneryCompositeKVCache K V)
    (base : CacheStack K V) : (eraseData acc p log (c :: b :: base) key).1.getLast? =
      (getDataIt acc p key (c :: b :: base)).1.getLast? := by
  obtain ⟨hnone, her⟩ | ⟨old, c₁, c₂, s', hold, hit, -, her⟩ := eraseData_cons acc p hkey log c (b :: base)
  · rw [her]
  · rw [her]
    exact getLast?_replace_head hit c₂

end CacheStack

section Operations

variable {log : Option CDBOpLogMap} {base : CacheStack K V}

theorem getLast?_getData (key : K) : (CacheStack.getData acc p (c :: base) key).1.getLast? =
    (c :: base).getLast?.map (((CacheOp.getData key).rootWrites acc p c base).foldl EntryWrite.apply) := by
  rw [CacheStack.getData, CacheOp.rootWrites]
  cases hkey : isEmpty key with
  | true => exact Option.map_id'.symm
  | false => exact CacheStack.getLast?_getDataIt acc p key (c :: base)

/-- A function that reads a key and then writes it in the first cache; an empty key it leaves alone. -/
theorem getLast?_written {key : K} (write : EntryWrite K V) {s : CacheStack K V}
    (hempty : isEmpty key = true → s = c :: base)
    (hroot : isEmpty key = false → base = [] →
      s = [(CacheStack.readWrites acc p key [c] ++ [write]).foldl EntryWrite.apply c])
    (habove : isEmpty key = false → ∀ b base', base = b :: base' →
      s.getLast? = (CacheStack.getDataIt acc p key (c :: b :: base')).1.getLast?) :
    s.getLast? = (c :: base).getLast?.map ((if isEmpty key then []
      else CacheStack.readWrites acc p key (c :: base) ++ if base.isEmpty then [write] else []).foldl
        EntryWrite.apply) := by
  cases hkey : isEmpty key with
  | true =>
    rw [hempty hkey, if_pos rfl]
    exact Option.map_id'.symm
  | false =>
    rw [if_neg Bool.false_ne_true]
    cases base with
    | nil =>
      rw [hroot hkey rfl]
      rfl
    | cons b base =>
      rw [habove hkey b base rfl, CacheStack.getLast?_getDataIt, List.isEmpty_cons, if_neg Bool.false_ne_true,
        List.append_nil]

theorem getLast?_setData (key : K) (value : V) : (CacheStack.setData acc p log (c :: base) key value).1.getLast? =
    (c :: base).getLast?.map (((CacheOp.setData key value).rootWrites acc p c base).foldl EntryWrite.apply) := by
  refine getLast?_written (.put key value) (fun hkey => ?_) (fun hkey hbase => ?_) fun hkey b base' hbase => ?_
  · rw [CacheStack.setData, if_pos hkey]
  · rw [hbase]
    exact CacheStack.setData_singleton hkey log c value
  · rw [hbase]
    exact CacheStack.getLast?_setData hkey log c b base' value

theorem getLast?_eraseData (key : K) : (CacheStack.eraseData acc p log (c :: base) key).1.getLast? =
    (c :: base).getLast?.map (((CacheOp.eraseData key).rootWrites acc p c base).foldl EntryWrite.apply) := by
  refine getLast?_written (.empty key) (fun hkey => ?_) (fun hkey hbase => ?_) fun hkey b base' hbase => ?_
  · rw [CacheStack.eraseData, if_pos hkey]
  · rw [hbase]
    exact CacheStack.eraseData_singleton hkey log c
  · rw [hbase]
    exact CacheStack.getLast?_eraseData hkey log c b base'

omit [DbUtil K] in
theorem getLast?_cons_cons_map {c' b : IneryCompositeKVCache K V} {s : CacheStack K V} :
    (c' :: b :: s).getLast? = (c :: b :: s).getLast?.map (([] : List (EntryWrite K V)).foldl EntryWrite.apply) := by
  rw [List.getLast?_cons_cons, List.getLast?_cons_cons]
  exact Option.map_id'.symm

/-- `Flush` of the first cache: into the database, into the lowest cache, or into one above it. -/
theorem getLast?_flush : (CacheStack.flush acc p (c :: base)).2.getLast? =
    (c :: base).getLast?.map ((CacheOp.flush.rootWrites acc p c base).foldl EntryWrite.apply) := by
  cases base with
  | nil => rfl
  | cons b base =>
    cases base with
    | nil =>
      show some (c.mapData.entries.foldl (fun b item => b.setDataToSelf item.1 item.2) b) =
        some ((c.mapData.entries.map fun e => EntryWrite.put e.1 e.2).foldl EntryWrite.apply b)
      rw [List.foldl_map]
      rfl
    | cons b' base =>
      show (c.clear :: _ :: b' :: base).getLast? = (c :: b :: b' :: base).getLast?.map _
      rw [List.getLast?_cons_cons, List.getLast?_cons_cons (a := c)]
      exact getLast?_cons_cons_map

theorem getLast?_apply {op : CacheOp K V} {r : CDBAccess × CacheStack K V × Option CDBOpLogMap}
    (h : op.apply acc p log c base = some r) :
    r.2.1.getLast? = (c :: base).getLast?.map ((op.rootWrites acc p c base).foldl EntryWrite.apply) := by
  cases op with
  | getData key =>
    obtain rfl := Option.some.inj h
    exact getLast?_getData key
  | hasData key =>
    obtain rfl := Option.some.inj h
    dsimp only
    rw [CacheStack.hasData_fst]
    exact getLast?_getData key
  | setData key value =>
    obtain rfl := Option.some.inj h
    exact getLast?_setData key value
  | eraseData key =>
    obtain rfl := Option.some.inj h
    exact getLast?_eraseData key
  | undoData dbOpLog =>
    obtain ⟨c', hundo, rfl⟩ := Option.map_eq_some_iff.mp h
    cases base with
    | nil =>
      obtain ⟨key, hkey, hundo⟩ := Option.bind_eq_some_iff.mp hundo
      obtain ⟨value, hvalue, rfl⟩ := Option.map_eq_some_iff.mp hundo
      rw [CacheOp.rootWrites, hkey, hvalue]
      rfl
    | cons b base => exact getLast?_cons_cons_map
  | clear =>
    obtain rfl := Option.some.inj h
    cases base with
    | nil => rfl
    | cons b base => exact getLast?_cons_cons_map
  | flush =>
    obtain rfl := Option.some.inj h
    exact getLast?_flush

end Operations

theorem CacheLevels.getLast?_step {st st' : CacheLevels K V} {op : LevelOp (CacheOp K V)}
    (h : step p st op = some st') :
    st'.caches.getLast? = st.caches.getLast?.map ((st.rootWrites p op).foldl EntryWrite.apply) := by
  cases op with
  | database acc =>
    obtain rfl := Option.some.inj h
    exact Option.map_id'.symm
  | cache i op =>
    rw [step] at h
    rw [rootWrites]
    cases hdrop : st.caches.drop i with
    | nil =>
      rw [hdrop] at h
      cases h
    | cons c base =>
      rw [hdrop] at h
      obtain ⟨r, hr, rfl⟩ := Option.map_eq_some_iff.mp h
      have hroot := getLast?_apply hr
      obtain ⟨root, hlast⟩ : ∃ root, (c :: base).getLast? = some root := ⟨_, List.getLast?_cons⟩
      have hcaches : st.caches.getLast? = some root := by
        rw [← List.take_append_drop i st.caches, hdrop, List.getLast?_append, hlast, Option.some_or]
      rw [hlast] at hroot
      rw [hcaches]
      show (st.caches.take i ++ r.2.1).getLast? = _
      rw [List.getLast?_append, hroot]
      rfl

/-- **One operation for whose writes there is room** keeps the count of the lowest cache right. -/
theorem CacheLevels.counted_step {st st' : CacheLevels K V} {op : LevelOp (CacheOp K V)}
    (hst : ∀ root ∈ st.caches.getLast?, root.Counted)
    (hfits : ∀ root ∈ st.caches.getLast?, FitsAll root (st.rootWrites p op))
    (h : step p st op = some st') : ∀ root ∈ st'.caches.getLast?, root.Counted := by
  rw [getLast?_step h]
  intro root hroot
  obtain ⟨root₀, hroot₀, rfl⟩ := Option.map_eq_some_iff.mp hroot
  exact counted_foldl (hst root₀ hroot₀) (hfits root₀ hroot₀)

end Root

end Inery
