import IneryPersistence.Leveldb.WriteBatch
import IneryPersistence.Lib.Versions
import Mathlib.Order.Compare

/-!
# The memtable

* `sliceCompare`, `InternalKeyComparator`, `KeyComparator`: the orders of keys and entries;
* `MemTable`, `Add`, `Get`, `InsertInto`: updates under their sequence numbers, and what a reader at a
  snapshot finds;
* `MemTable.Shows`: the entries are those of a map of versions, kept by `Add`;
* `MemTable.Shows.get`: a reader finds the newest version that its snapshot has;
* **`get_snapshot`**: a snapshot reads, over older data, the updates that it has, and no other.
-/

namespace Inery.Leveldb

open KV LittleEndian

/-! ## Orders -/

/-- `memcmp`, by its sign. -/
def memcmp : ℕ → Bytes → Bytes → Ordering
  | n + 1, a :: as, b :: bs => if a < b then .lt else if b < a then .gt else memcmp n as bs
  | _, _, _ => .eq

/-- `Slice::compare`. -/
def sliceCompare (a b : Bytes) : Ordering :=
  let min_len := if a.length < b.length then a.length else b.length
  match memcmp min_len a b with
  | .eq => if a.length < b.length then .lt else if b.length < a.length then .gt else .eq
  | r => r

/-- **Slices are compared bytewise**, by the first difference and then by their lengths. -/
theorem sliceCompare_eq (a b : Bytes) :
    sliceCompare a b = if a < b then .lt else if b < a then .gt else .eq := by
  induction a generalizing b with
  | nil =>
    cases b with
    | nil => rfl
    | cons b bs =>
      rw [if_pos (List.nil_lt_cons b bs)]
      simp [sliceCompare, memcmp]
  | cons a as ih =>
    cases b with
    | nil =>
      rw [if_neg (List.not_lt_nil _), if_pos (List.nil_lt_cons a as)]
      simp [sliceCompare, memcmp]
    | cons b bs =>
      have hmin : (if (a :: as).length < (b :: bs).length then (a :: as).length else (b :: bs).length) =
          (if as.length < bs.length then as.length else bs.length) + 1 := by
        rw [List.length_cons, List.length_cons]
        split_ifs <;> omega
      rw [sliceCompare, hmin, memcmp]
      rcases lt_trichotomy a b with h | h | h
      · rw [if_pos h, if_pos (List.cons_lt_cons_iff.mpr (.inl h))]
      · subst h
        have hcons : ∀ x y : Bytes, a :: x < a :: y ↔ x < y := fun x y => by simp
        rw [if_neg (lt_irrefl a), if_neg (lt_irrefl a)]
        simp only [hcons]
        rw [← ih bs, sliceCompare]
        simp only [List.length_cons, Nat.add_lt_add_iff_right]
      · have hnot : ¬ a :: as < b :: bs := fun hlt => by
          rcases List.cons_lt_cons_iff.mp hlt with hab | ⟨hab, -⟩
          · exact lt_asymm h hab
          · exact h.ne' hab
        rw [if_neg (lt_asymm h), if_pos h, if_neg hnot, if_pos (List.cons_lt_cons_iff.mpr (.inl h))]

theorem sliceCompare_eq_eq {a b : Bytes} : sliceCompare a b = .eq ↔ a = b := by
  rw [sliceCompare_eq]
  rcases lt_trichotomy a b with h | h | h
  · simp [h, h.ne]
  · simp [h]
  · simp [h, h.ne', lt_asymm h]

theorem sliceCompare_eq_lt {a b : Bytes} : sliceCompare a b = .lt ↔ a < b := by
  rw [sliceCompare_eq]
  split_ifs with h h' <;> simp [h]

theorem sliceCompare_trans (a b c : Bytes) (h : sliceCompare a b = .lt) (h' : sliceCompare b c = .lt) :
    sliceCompare a c = .lt :=
  sliceCompare_eq_lt.mpr (lt_trans (sliceCompare_eq_lt.mp h) (sliceCompare_eq_lt.mp h'))

def ExtractUserKey (internal_key : Bytes) : Bytes := internal_key.take (internal_key.length - 8)

/-- `InternalKeyComparator::Compare`, on bytewise user keys. -/
def InternalKeyComparator (akey bkey : Bytes) : Ordering :=
  match sliceCompare (ExtractUserKey akey) (ExtractUserKey bkey) with
  | .eq =>
    let anum := DecodeFixed64 (akey.drop (akey.length - 8))
    let bnum := DecodeFixed64 (bkey.drop (bkey.length - 8))
    if bnum < anum then .lt else if anum < bnum then .gt else .eq
  | r => r

/-- The slice that an entry begins with; entries are not corrupted. -/
def entrySlice (data : Bytes) : Bytes := (GetVarint32Ptr data).elim [] fun r => r.2.take r.1.toNat

/-- `MemTable::KeyComparator`. -/
def KeyComparator (aptr bptr : Bytes) : Ordering := InternalKeyComparator (entrySlice aptr) (entrySlice bptr)

/-! ## Lists of keys -/

/-- `SkipList::FindGreaterOrEqual` and the keys behind, as the lowest level links them. -/
def FindGreaterOrEqual {Key : Type} (compare : Key → Key → Ordering) (key : Key) (l : List Key) : List Key :=
  l.dropWhile fun n => compare n key = .lt

/-- `SkipList::Insert`, as the lowest level links the keys. -/
def InsertKey {Key : Type} (compare : Key → Key → Ordering) (key : Key) (l : List Key) : List Key :=
  (l.takeWhile fun n => compare n key = .lt) ++ key :: FindGreaterOrEqual compare key l

/-! ## Memtable -/

structure MemTable where
  table_ : List Bytes

def MemTable.new : MemTable := ⟨[]⟩

def PackSequenceAndType (seq : UInt64) (t : ValueType) : UInt64 := (seq <<< 8) ||| UInt64.ofNat t.toNat

/-- The bytes of an internal key, with the length before them. -/
def lengthPrefixedKey (key : Bytes) (tag : UInt64) : Bytes :=
  EncodeVarint32 (UInt32.ofNat (key.length + 8)) ++ (key ++ EncodeFixed64 tag)

def MemTable.Add (m : MemTable) (s : UInt64) (type : ValueType) (key value : Bytes) : MemTable :=
  ⟨InsertKey KeyComparator (lengthPrefixedKey key (PackSequenceAndType s type) ++
    (EncodeVarint32 (UInt32.ofNat value.length) ++ value)) m.table_⟩

/-- `LookupKey::memtable_key`. -/
def memtableKey (user_key : Bytes) (s : UInt64) : Bytes :=
  lengthPrefixedKey user_key (PackSequenceAndType s .kTypeValue)

/-- What `Get` makes of the entry that it comes to. -/
def readEntry (user_key entry : Bytes) : Option (Status × Bytes) :=
  (GetVarint32Ptr entry).bind fun p =>
    let key_length := p.1.toNat
    let key_ptr := p.2
    if sliceCompare (key_ptr.take (key_length - 8)) user_key = .eq then
      let tag := DecodeFixed64 (key_ptr.drop (key_length - 8))
      if (tag &&& 0xff).toNat = ValueType.kTypeValue.toNat then some (.OK, entrySlice (key_ptr.drop key_length))
      else if (tag &&& 0xff).toNat = ValueType.kTypeDeletion.toNat then some (.NotFound, [])
      else none
    else none

/-- `Get`: nothing when the table has no entry for the key, otherwise the status and the value. -/
def MemTable.Get (m : MemTable) (user_key : Bytes) (s : UInt64) : Option (Status × Bytes) :=
  (FindGreaterOrEqual KeyComparator (memtableKey user_key s) m.table_).head?.bind (readEntry user_key)

/-- The calls of `MemTableInserter`. -/
def MemTable.addUpdate (m : MemTable) (sequence : UInt64) : BatchOp → MemTable
  | .put key value => m.Add sequence .kTypeValue key value
  | .delete key => m.Add sequence .kTypeDeletion key []

/-- The updates under consecutive sequence numbers. -/
def MemTable.addUpdates (m : MemTable) (sequence : UInt64) : List BatchOp → MemTable
  | [] => m
  | op :: ops => (m.addUpdate sequence op).addUpdates (sequence + 1) ops

/-- `WriteBatchInternal::InsertInto`. -/
def WriteBatch.InsertInto (b : WriteBatch) (m : MemTable) : MemTable × Status :=
  (m.addUpdates b.Sequence b.Iterate.1, b.Iterate.2)

/-! ## Versions -/

/-- The key and the tag of a version. -/
def versionBytes (key : Bytes) (tag : ℕ) : Bytes := lengthPrefixedKey key (UInt64.ofNat tag)

/-- The bytes of an entry. -/
def entryBytes (e : (Bytes ×ₗ ℕᵒᵈ) × Bytes) : Bytes :=
  versionBytes (ofLex e.1).1 (OrderDual.ofDual (ofLex e.1).2) ++ PutLengthPrefixedSlice e.2

theorem entryBytes_versionKey (key : Bytes) (tag : ℕ) (value : Bytes) :
    entryBytes (versionKey key tag, value) = versionBytes key tag ++ PutLengthPrefixedSlice value := rfl

/-- The length of a key and its tag are numbers that the bytes can hold. -/
structure VersionFits (key : Bytes) (tag : ℕ) : Prop where
  length_lt : key.length + 8 < 2 ^ 32
  tag_lt : tag < 2 ^ 64

theorem length_internalKey (key : Bytes) (tag : UInt64) : (key ++ EncodeFixed64 tag).length = key.length + 8 := by
  rw [List.length_append, length_encodeFixed64]

theorem getVarint32Ptr_lengthPrefixedKey {key : Bytes} (h : key.length + 8 < 2 ^ 32) (tag : UInt64) (rest : Bytes) :
    ∃ n : UInt32, n.toNat = key.length + 8 ∧
      GetVarint32Ptr (lengthPrefixedKey key tag ++ rest) = some (n, key ++ (EncodeFixed64 tag ++ rest)) := by
  refine ⟨UInt32.ofNat (key.length + 8), by rw [UInt32.toNat_ofNat', Nat.mod_eq_of_lt h], ?_⟩
  rw [lengthPrefixedKey, List.append_assoc, getVarint32Ptr_encodeVarint32, List.append_assoc]

theorem entrySlice_lengthPrefixedKey {key : Bytes} (h : key.length + 8 < 2 ^ 32) (tag : UInt64) (rest : Bytes) :
    entrySlice (lengthPrefixedKey key tag ++ rest) = key ++ EncodeFixed64 tag := by
  obtain ⟨n, hn, hget⟩ := getVarint32Ptr_lengthPrefixedKey h tag rest
  have hlen : n.toNat = (key ++ EncodeFixed64 tag).length := by rw [hn, length_internalKey]
  rw [entrySlice, hget]
  change (key ++ (EncodeFixed64 tag ++ rest)).take n.toNat = _
  rw [hlen, ← List.append_assoc, List.take_left]

/-- **Internal keys ascend by user key**, and descend by tag. -/
theorem internalKeyComparator_eq_lt {key key' : Bytes} {tag tag' : ℕ} (h : tag < 2 ^ 64) (h' : tag' < 2 ^ 64) :
    InternalKeyComparator (key ++ EncodeFixed64 (UInt64.ofNat tag))
      (key' ++ EncodeFixed64 (UInt64.ofNat tag')) = .lt ↔ versionKey key tag < versionKey key' tag' := by
  have huser : ∀ (k : Bytes) (t : UInt64), ExtractUserKey (k ++ EncodeFixed64 t) = k := fun k t => by
    rw [ExtractUserKey, length_internalKey, Nat.add_sub_cancel, List.take_left]
  have hnum : ∀ (k : Bytes) (t : UInt64),
      DecodeFixed64 ((k ++ EncodeFixed64 t).drop ((k ++ EncodeFixed64 t).length - 8)) = t := fun k t => by
    have hdec := decodeFixed64_encodeFixed64 t []
    rw [length_internalKey, Nat.add_sub_cancel, List.drop_left]
    rwa [List.append_nil] at hdec
  have htag : UInt64.ofNat tag' < UInt64.ofNat tag ↔ tag' < tag := by
    rw [UInt64.lt_iff_toNat_lt, UInt64.toNat_ofNat', UInt64.toNat_ofNat', Nat.mod_eq_of_lt h, Nat.mod_eq_of_lt h']
  rw [InternalKeyComparator, huser, huser, hnum, hnum, sliceCompare_eq, versionKey_lt_iff]
  rcases lt_trichotomy key key' with hk | hk | hk
  · simp [hk]
  · subst hk
    rw [if_neg (lt_irrefl key), if_neg (lt_irrefl key)]
    simp only [htag]
    by_cases hlt : tag' < tag
    · simp [hlt]
    · by_cases hgt : UInt64.ofNat tag < UInt64.ofNat tag' <;> simp [hlt, hgt]
  · simp [hk, lt_asymm hk, hk.ne']

theorem keyComparator_eq_lt {key key' : Bytes} {tag tag' : ℕ} (h : VersionFits key tag) (h' : VersionFits key' tag')
    (rest rest' : Bytes) :
    KeyComparator (versionBytes key tag ++ rest) (versionBytes key' tag' ++ rest') = .lt ↔
      versionKey key tag < versionKey key' tag' := by
  rw [KeyComparator, versionBytes, versionBytes, entrySlice_lengthPrefixedKey h.length_lt,
    entrySlice_lengthPrefixedKey h'.length_lt, internalKeyComparator_eq_lt h.tag_lt h'.tag_lt]

/-! ## Entries -/

/-- A version that the table can hold, its type in the lowest byte of the tag. -/
structure EntryFits (key : Bytes) (tag : ℕ) (value : Bytes) : Prop extends VersionFits key tag where
  value_lt : value.length < 2 ^ 32
  type_le : tag % 256 ≤ 1

/-- The memtable has the entries of a map of versions. -/
structure MemTable.Shows (m : MemTable) (vs : SortedMap (Bytes ×ₗ ℕᵒᵈ) Bytes) : Prop where
  table : m.table_ = vs.entries.map entryBytes
  fits : ∀ key tag value, vs.find? (versionKey key tag) = some value → EntryFits key tag value

theorem MemTable.shows_new : MemTable.new.Shows ∅ := ⟨rfl, fun _ _ _ h => by cases h⟩

variable {m : MemTable} {vs : SortedMap (Bytes ×ₗ ℕᵒᵈ) Bytes}

/-- The entries that a search for a key passes over. -/
def isBelow (key n : Bytes) : Bool := KeyComparator n key = .lt

theorem MemTable.Shows.below (h : m.Shows vs) {key : Bytes} {tag : ℕ} (hfits : VersionFits key tag) (rest : Bytes) :
    ∀ e ∈ vs.entries, isBelow (versionBytes key tag ++ rest) (entryBytes e) = true ↔ e.1 < versionKey key tag := by
  intro e he
  obtain ⟨p, value⟩ := e
  obtain ⟨key', tag', rfl⟩ := exists_versionKey p
  have hfits' := (h.fits key' tag' value (SortedMap.find?_eq_some_iff.mpr he)).toVersionFits
  rw [isBelow, decide_eq_true_iff, entryBytes_versionKey, keyComparator_eq_lt hfits' hfits]

theorem packSequenceAndType_eq {seq : UInt64} (h : seq.toNat < 2 ^ 56) (t : ValueType) :
    PackSequenceAndType seq t = UInt64.ofNat (seq.toNat * 256 + t.toNat) := by
  have ht : t.toNat < 2 ^ 8 := by cases t <;> decide
  have hlt : seq.toNat * 256 + t.toNat < 2 ^ 64 := by omega
  have ht64 : t.toNat < 2 ^ 64 := by omega
  have hshift : (seq <<< 8).toNat = 2 ^ 8 * seq.toNat := by
    have h64 : seq.toNat * 256 < 2 ^ 64 := lt_of_le_of_lt (Nat.le_add_right _ _) hlt
    have hdef : (seq <<< 8).toNat = seq.toNat <<< 8 % 2 ^ 64 := UInt64.toNat_shiftLeft seq 8
    rw [hdef, Nat.shiftLeft_eq, Nat.mul_comm]
    exact Nat.mod_eq_of_lt (by rwa [Nat.mul_comm])
  refine UInt64.toNat_inj.mp ?_
  rw [PackSequenceAndType, UInt64.toNat_or, hshift, UInt64.toNat_ofNat', UInt64.toNat_ofNat', Nat.mod_eq_of_lt hlt,
    Nat.mod_eq_of_lt ht64, ← Nat.two_pow_add_eq_or_of_lt ht, Nat.mul_comm]

theorem versionFits_pack {key : Bytes} (hkey : key.length + 8 < 2 ^ 32) {seq : UInt64} (h : seq.toNat < 2 ^ 56)
    (t : ValueType) : VersionFits key (seq.toNat * 256 + t.toNat) := by
  have ht : t.toNat < 2 ^ 8 := by cases t <;> decide
  exact ⟨hkey, by omega⟩

theorem MemTable.Shows.add (h : m.Shows vs) {s : UInt64} (hs : s.toNat < 2 ^ 56) (type : ValueType)
    {key value : Bytes} (hkey : key.length + 8 < 2 ^ 32) (hvalue : value.length < 2 ^ 32)
    (hnew : vs.find? (versionKey key (s.toNat * 256 + type.toNat)) = none) :
    (m.Add s type key value).Shows (vs.insert (versionKey key (s.toNat * 256 + type.toNat)) value) := by
  have hfits := versionFits_pack hkey hs type
  refine ⟨?_, fun key' tag value' hfind => ?_⟩
  · have hins := map_insert_of_none entryBytes _ (h.below hfits (PutLengthPrefixedSlice value)) hnew value
    rw [← hins, ← h.table, MemTable.Add, packSequenceAndType_eq hs]
    rfl
  · rw [SortedMap.find?_insert] at hfind
    split_ifs at hfind with heq
    · obtain ⟨rfl, rfl⟩ := versionKey_inj.mp heq
      have hlow : (s.toNat * 256 + type.toNat) % 256 ≤ 1 := by
        cases type <;> simp only [ValueType.toNat] <;> omega
      rw [← Option.some.inj hfind]
      exact ⟨hfits, hvalue, hlow⟩
    · exact h.fits key' tag value' hfind

/-- The status and the value of a version. -/
def versionResult (r : ℕ × Bytes) : Status × Bytes := if r.1 % 256 = 1 then (.OK, r.2) else (.NotFound, [])

theorem readEntry_entryBytes (key : Bytes) {key' : Bytes} {tag : ℕ} {value : Bytes}
    (hfits : EntryFits key' tag value) : readEntry key (entryBytes (versionKey key' tag, value)) =
      if key' = key then some (versionResult (tag, value)) else none := by
  obtain ⟨n, hn, hget⟩ :=
    getVarint32Ptr_lengthPrefixedKey hfits.length_lt (UInt64.ofNat tag) (PutLengthPrefixedSlice value)
  have hkey : (key' ++ (EncodeFixed64 (UInt64.ofNat tag) ++ PutLengthPrefixedSlice value)).take (n.toNat - 8) =
      key' := by
    rw [hn, Nat.add_sub_cancel, List.take_left]
  have htag : DecodeFixed64 ((key' ++ (EncodeFixed64 (UInt64.ofNat tag) ++ PutLengthPrefixedSlice value)).drop
      (n.toNat - 8)) = UInt64.ofNat tag := by
    rw [hn, Nat.add_sub_cancel, List.drop_left, decodeFixed64_encodeFixed64]
  have hval : entrySlice
      ((key' ++ (EncodeFixed64 (UInt64.ofNat tag) ++ PutLengthPrefixedSlice value)).drop n.toNat) = value := by
    have hlen : n.toNat = (key' ++ EncodeFixed64 (UInt64.ofNat tag)).length := by rw [hn, length_internalKey]
    have hsize : (UInt32.ofNat value.length).toNat = value.length := by
      rw [UInt32.toNat_ofNat', Nat.mod_eq_of_lt hfits.value_lt]
    have hread := getVarint32Ptr_encodeVarint32 (UInt32.ofNat value.length) value
    rw [hlen, ← List.append_assoc, List.drop_left, entrySlice, PutLengthPrefixedSlice, hread]
    change value.take (UInt32.ofNat value.length).toNat = value
    rw [hsize, List.take_length]
  have hlow : (UInt64.ofNat tag &&& 0xff).toNat = tag % 256 := by
    rw [UInt64.toNat_and, UInt64.toNat_ofNat', Nat.mod_eq_of_lt hfits.tag_lt]
    exact Nat.and_two_pow_sub_one_eq_mod tag 8
  rw [entryBytes_versionKey, versionBytes, readEntry, hget, Option.bind_some]
  dsimp only
  rw [hkey, htag, hval, hlow]
  by_cases hsame : key' = key
  · rw [if_pos (sliceCompare_eq_eq.mpr hsame), if_pos hsame, versionResult]
    rcases Nat.lt_or_ge (tag % 256) 1 with hzero | hone
    · have htype : tag % 256 = 0 := by omega
      rw [htype]
      rfl
    · have htype : tag % 256 = 1 := le_antisymm hfits.type_le hone
      rw [htype]
      rfl
  · rw [if_neg fun h => hsame (sliceCompare_eq_eq.mp h), if_neg hsame]

/-- **A reader finds the newest version** that its snapshot has. -/
theorem MemTable.Shows.get (h : m.Shows vs) {key : Bytes} (hkey : key.length + 8 < 2 ^ 32) {s : UInt64}
    (hs : s.toNat < 2 ^ 56) : m.Get key s = (readAt vs key (s.toNat * 256 + 1)).map versionResult := by
  have hfits := versionFits_pack hkey hs .kTypeValue
  have hsearch := (while_map entryBytes _ (h.below hfits [])).2
  have hmem : memtableKey key s = versionBytes key (s.toNat * 256 + ValueType.kTypeValue.toNat) ++ [] := by
    rw [List.append_nil, versionBytes, memtableKey, packSequenceAndType_eq hs]
  have hfind : FindGreaterOrEqual KeyComparator (memtableKey key s) m.table_ =
      (vs.lowerBound (versionKey key (s.toNat * 256 + 1))).map entryBytes := by
    rw [hmem, h.table]
    exact hsearch
  rw [MemTable.Get, hfind, List.head?_map, readAt]
  cases hhead : (vs.lowerBound (versionKey key (s.toNat * 256 + 1))).head? with
  | none => rfl
  | some e =>
    obtain ⟨p, value⟩ := e
    obtain ⟨key', tag, rfl⟩ := exists_versionKey p
    have hmem : (versionKey key' tag, value) ∈ vs.entries :=
      (SortedMap.mem_lowerBound.mp (List.mem_of_mem_head? hhead)).1
    have hentry := readEntry_entryBytes key (h.fits key' tag value (SortedMap.find?_eq_some_iff.mpr hmem))
    rw [Option.map_some, Option.bind_some, Option.bind_some, hentry]
    by_cases hsame : key' = key
    · have hthis : (ofLex (versionKey key' tag)).1 = key := hsame
      rw [if_pos hsame, if_pos hthis]
      rfl
    · have hthis : ¬ (ofLex (versionKey key' tag)).1 = key := hsame
      rw [if_neg hsame, if_neg hthis]
      rfl

/-! ## Snapshots -/

/-- What is read of a key after an update, given what was read before it. -/
def updateOn (key : Bytes) (o : Option Bytes) : BatchOp → Option Bytes
  | .put key' value => if key = key' then some value else o
  | .delete key' => if key = key' then none else o

theorem find?_apply (db : LevelDb) (op : BatchOp) (key : Bytes) :
    (op.apply db).find? key = updateOn key (db.find? key) op := by
  cases op with
  | put key' value =>
    rw [BatchOp.apply, SortedMap.find?_insert, updateOn]
    split_ifs <;> rfl
  | delete key' =>
    rw [BatchOp.apply, SortedMap.find?_erase, updateOn]
    split_ifs <;> rfl

theorem find?_foldl_apply (db : LevelDb) (ops : List BatchOp) (key : Bytes) :
    (ops.foldl BatchOp.apply db).find? key = ops.foldl (updateOn key) (db.find? key) := by
  induction ops generalizing db with
  | nil => rfl
  | cons op ops ih => rw [List.foldl_cons, ih, find?_apply, List.foldl_cons]

/-- What is read of a key that older data has under a memtable: a deletion hides it. -/
def overlay (found : Option (Status × Bytes)) (older : Option Bytes) : Option Bytes :=
  found.elim older fun r => if r.1 = .OK then some r.2 else none

/-- What a snapshot reads of a key in versions over older data. -/
def readOver (vs : SortedMap (Bytes ×ₗ ℕᵒᵈ) Bytes) (key : Bytes) (snap : ℕ) (older : Option Bytes) : Option Bytes :=
  overlay ((readAt vs key (snap * 256 + 1)).map versionResult) older

/-- All versions are older than the sequence number. -/
def Before (vs : SortedMap (Bytes ×ₗ ℕᵒᵈ) Bytes) (s : ℕ) : Prop :=
  ∀ key tag value, vs.find? (versionKey key tag) = some value → tag < s * 256

theorem Before.mono {s s' : ℕ} (h : Before vs s) (hs : s ≤ s') : Before vs s' := fun key tag value hfind =>
  lt_of_lt_of_le (h key tag value hfind) (Nat.mul_le_mul_right 256 hs)

/-- What a version of a sequence number that is newer than all others changes. -/
theorem readOver_insert {s : ℕ} (h : Before vs s) (type : ValueType) (key value : Bytes) (key' : Bytes) (snap : ℕ)
    (older : Option Bytes) :
    readOver (vs.insert (versionKey key (s * 256 + type.toNat)) value) key' snap older =
      if s ≤ snap then
        if key' = key then (if type = .kTypeValue then some value else none)
        else readOver vs key' snap older
      else readOver vs key' snap older := by
  have htype : type.toNat ≤ 1 := by cases type <;> decide
  have hnew : ∀ v' x', vs.find? (versionKey key v') = some x' → v' < s * 256 + type.toNat := fun v' x' hfind =>
    lt_of_lt_of_le (h key v' x' hfind) (Nat.le_add_right _ _)
  have hsnap : s * 256 + type.toNat ≤ snap * 256 + 1 ↔ s ≤ snap := by omega
  rw [readOver, readOver, readAt_insert hnew]
  by_cases hread : key' = key ∧ s * 256 + type.toNat ≤ snap * 256 + 1
  · rw [if_pos hread, if_pos (hsnap.mp hread.2), if_pos hread.1, Option.map_some, versionResult]
    cases type with
    | kTypeDeletion =>
      have hlow : ¬ (s * 256 + ValueType.kTypeDeletion.toNat) % 256 = 1 := by
        rw [ValueType.toNat]
        omega
      dsimp only
      rw [if_neg hlow]
      rfl
    | kTypeValue =>
      have hlow : (s * 256 + ValueType.kTypeValue.toNat) % 256 = 1 := by
        rw [ValueType.toNat]
        omega
      dsimp only
      rw [if_pos hlow]
      rfl
  · rw [if_neg hread]
    by_cases hs : s ≤ snap
    · rw [if_pos hs, if_neg fun hk => hread ⟨hk, hsnap.mpr hs⟩]
    · rw [if_neg hs]

theorem MemTable.Shows.addUpdate (h : m.Shows vs) {s : UInt64} (hs : s.toNat < 2 ^ 56) (hbefore : Before vs s.toNat)
    {op : BatchOp} (hop : WriteBatch.SizesFit op) :
    ∃ vs', (m.addUpdate s op).Shows vs' ∧ Before vs' (s.toNat + 1) ∧
      ∀ (key : Bytes) (snap : ℕ) (older : Option Bytes), readOver vs' key snap older =
        if s.toNat ≤ snap then updateOn key (readOver vs key snap older) op
        else readOver vs key snap older := by
  have hnone : ∀ (key : Bytes) (type : ValueType), vs.find? (versionKey key (s.toNat * 256 + type.toNat)) =
      none := by
    intro key type
    cases hfind : vs.find? (versionKey key (s.toNat * 256 + type.toNat)) with
    | none => rfl
    | some value => exact absurd (hbefore _ _ _ hfind) (not_lt.mpr (Nat.le_add_right _ _))
  have hafter : ∀ (key value : Bytes) (type : ValueType),
      Before (vs.insert (versionKey key (s.toNat * 256 + type.toNat)) value) (s.toNat + 1) := by
    intro key value type key' tag value' hfind
    have htype : type.toNat ≤ 1 := by cases type <;> decide
    rw [SortedMap.find?_insert] at hfind
    split_ifs at hfind with heq
    · rw [(versionKey_inj.mp heq).2]
      omega
    · exact hbefore.mono (Nat.le_succ _) key' tag value' hfind
  cases op with
  | put key value =>
    refine ⟨_, h.add hs .kTypeValue hop.1 hop.2 (hnone key _), hafter key value _, fun key' snap older => ?_⟩
    rw [readOver_insert hbefore, if_pos rfl]
    rfl
  | delete key =>
    refine ⟨_, h.add hs .kTypeDeletion hop (by decide) (hnone key _), hafter key [] _, fun key' snap older => ?_⟩
    have hne : ¬ ValueType.kTypeDeletion = ValueType.kTypeValue := by decide
    rw [readOver_insert hbefore, if_neg hne]
    rfl

/-- **Updates under consecutive sequence numbers**: a snapshot reads those that it has. -/
theorem MemTable.Shows.addUpdates (h : m.Shows vs) {s : UInt64} {ops : List BatchOp}
    (hs : s.toNat + ops.length ≤ 2 ^ 56) (hbefore : Before vs s.toNat) (hops : ∀ op ∈ ops, WriteBatch.SizesFit op) :
    ∃ vs', (m.addUpdates s ops).Shows vs' ∧ Before vs' (s.toNat + ops.length) ∧
      ∀ (key : Bytes) (snap : ℕ) (older : Option Bytes),
        readOver vs' key snap older =
          (ops.take (snap + 1 - s.toNat)).foldl (updateOn key) (readOver vs key snap older) := by
  induction ops generalizing m vs s with
  | nil => exact ⟨vs, h, hbefore, fun key snap older => by rw [List.take_nil, List.foldl_nil]⟩
  | cons op ops ih =>
    rw [List.length_cons] at hs
    have hlt : s.toNat < 2 ^ 56 := by omega
    have hnext : (s + 1).toNat = s.toNat + 1 := by
      rw [UInt64.toNat_add]
      exact Nat.mod_eq_of_lt (by change s.toNat + 1 < 2 ^ 64; omega)
    obtain ⟨vs₁, hshows, hbefore₁, hread₁⟩ := h.addUpdate hlt hbefore (hops op List.mem_cons_self)
    obtain ⟨vs', hshows', hbefore', hread'⟩ := ih hshows (by omega) (hnext ▸ hbefore₁)
      fun op' hop => hops op' (List.mem_cons_of_mem _ hop)
    refine ⟨vs', hshows', ?_, fun key snap older => ?_⟩
    · rw [List.length_cons, Nat.add_comm ops.length 1, ← Nat.add_assoc, ← hnext]
      exact hbefore'
    · rw [hread' key snap older, hread₁ key snap older, hnext]
      split_ifs with hsnap
      · have htake : snap + 1 - s.toNat = (snap + 1 - (s.toNat + 1)) + 1 := by omega
        rw [htake, List.take_succ_cons, List.foldl_cons]
      · have hnone : snap + 1 - (s.toNat + 1) = 0 := by omega
        have hnone' : snap + 1 - s.toNat = 0 := by omega
        rw [hnone, hnone', List.take_zero, List.take_zero]

theorem before_empty (s : ℕ) : Before ∅ s := fun _ _ _ h => by cases h

theorem MemTable.Shows.overlay_get (h : m.Shows vs) {key : Bytes} (hkey : key.length + 8 < 2 ^ 32) {s : UInt64}
    (hs : s.toNat < 2 ^ 56) (older : Option Bytes) :
    overlay (m.Get key s) older = readOver vs key s.toNat older := by
  rw [h.get hkey hs, readOver]

/-- **What a snapshot reads**: over older data, the updates that it has, and no other. -/
theorem get_snapshot {s : UInt64} {ops : List BatchOp} (hs : s.toNat + ops.length ≤ 2 ^ 56)
    (hops : ∀ op ∈ ops, WriteBatch.SizesFit op) {snap : UInt64} (hsnap : snap.toNat < 2 ^ 56) {key : Bytes}
    (hkey : key.length + 8 < 2 ^ 32) (db : LevelDb) :
    overlay ((MemTable.new.addUpdates s ops).Get key snap) (db.find? key) =
      ((ops.take (snap.toNat + 1 - s.toNat)).foldl BatchOp.apply db).find? key := by
  obtain ⟨vs, hshows, -, hread⟩ := MemTable.shows_new.addUpdates hs (before_empty _) hops
  rw [hshows.overlay_get hkey hsnap, hread, find?_foldl_apply]
  rfl

/-- A value that is overwritten and later deleted, at a snapshot before the deletion. -/
theorem get_snapshot_three :
    overlay ((MemTable.new.addUpdates 5 [.put [1] [7], .put [1] [8], .delete [1]]).Get [1] 6) none = some [8] :=
  (get_snapshot (by decide) (by decide) (by decide) (by decide) ∅).trans (by decide)

end Inery.Leveldb
