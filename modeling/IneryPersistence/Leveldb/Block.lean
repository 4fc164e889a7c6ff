import IneryPersistence.Leveldb.WriteBatch

/-!
# Blocks of a table

A block holds entries in the order of their keys. An entry leaves out what its key shares with the key before it,
except at restart points, whose offsets stand behind the entries.

* `BlockBuilder`, `Add`, `Finish`: how a block is written;
* `Block`, `DecodeEntry`, `BlockIter`: how it is read;
* `SeekToFirst`, `SeekToLast`, `Seek`, `Next`, `Prev`: the moves of an iterator.
-/

namespace Inery.Leveldb

open KV

/-! ## Builder -/

structure BlockBuilder where
  block_restart_interval : ℕ
  buffer_ : Bytes
  restarts_ : List ℕ
  counter_ : ℕ
  last_key_ : Bytes

def BlockBuilder.new (block_restart_interval : ℕ) : BlockBuilder := ⟨block_restart_interval, [], [0], 0, []⟩

/-- The loop of `Add`: how many bytes two keys share. -/
def sharedLength : Bytes → Bytes → ℕ
  | a :: as, b :: bs => if a = b then sharedLength as bs + 1 else 0
  | _, _ => 0

/-- An entry that leaves out the first `shared` bytes of its key. -/
def chunkBytes (shared : ℕ) (key value : Bytes) : Bytes :=
  EncodeVarint32 (UInt32.ofNat shared) ++ (EncodeVarint32 (UInt32.ofNat (key.length - shared)) ++
    (EncodeVarint32 (UInt32.ofNat value.length) ++ (key.drop shared ++ value)))

def BlockBuilder.Add (b : BlockBuilder) (key value : Bytes) : BlockBuilder :=
  if b.counter_ < b.block_restart_interval then
    let shared := sharedLength b.last_key_ key
    { b with
      buffer_ := b.buffer_ ++ chunkBytes shared key value
      counter_ := b.counter_ + 1
      last_key_ := b.last_key_.take shared ++ key.drop shared }
  else
    { b with
      buffer_ := b.buffer_ ++ chunkBytes 0 key value
      restarts_ := b.restarts_ ++ [b.buffer_.length]
      counter_ := 1
      last_key_ := b.last_key_.take 0 ++ key.drop 0 }

def BlockBuilder.Finish (b : BlockBuilder) : Bytes :=
  b.buffer_ ++ (b.restarts_.flatMap fun r => EncodeFixed32 (UInt32.ofNat r)) ++
    EncodeFixed32 (UInt32.ofNat b.restarts_.length)

/-! ## Entries -/

/-- `DecodeEntry`: the three lengths, and what follows them up to the limit. -/
def DecodeEntry (p : Bytes) : Option ((UInt32 × UInt32 × UInt32) × Bytes) :=
  if p.length < 3 then none
  else
    let decoded :=
      if ((p.getD 0 0).val ||| (p.getD 1 0).val ||| (p.getD 2 0).val) < 128 then
        some ((UInt32.ofNat (p.getD 0 0).val, UInt32.ofNat (p.getD 1 0).val, UInt32.ofNat (p.getD 2 0).val),
          p.drop 3)
      else
        (GetVarint32Ptr p).bind fun shared => (GetVarint32Ptr shared.2).bind fun non_shared =>
          (GetVarint32Ptr non_shared.2).map fun value_length =>
            ((shared.1, non_shared.1, value_length.1), value_length.2)
    decoded.bind fun r => if UInt32.ofNat r.2.length < r.1.2.1 + r.1.2.2 then none else some r

theorem length_getVarint32Ptr {p rest : Bytes} {v : UInt32} (h : GetVarint32Ptr p = some (v, rest)) :
    rest.length < p.length := by
  rw [getVarint32Ptr_eq] at h
  exact length_varint32Loop h

theorem length_decodeEntry {p : Bytes} {r : (UInt32 × UInt32 × UInt32) × Bytes} (h : DecodeEntry p = some r) :
    r.2.length < p.length := by
  rw [DecodeEntry] at h
  by_cases hshort : p.length < 3
  · rw [if_pos hshort] at h
    cases h
  rw [if_neg hshort] at h
  obtain ⟨d, hd, h⟩ := Option.bind_eq_some_iff.mp h
  by_cases hsize : UInt32.ofNat d.2.length < d.1.2.1 + d.1.2.2
  · rw [if_pos hsize] at h
    cases h
  rw [if_neg hsize] at h
  obtain rfl := Option.some.inj h
  split_ifs at hd
  · obtain rfl := Option.some.inj hd
    rw [List.length_drop]
    omega
  · obtain ⟨shared, hshared, hd⟩ := Option.bind_eq_some_iff.mp hd
    obtain ⟨non_shared, hnon_shared, hd⟩ := Option.bind_eq_some_iff.mp hd
    obtain ⟨value_length, hvalue_length, rfl⟩ := Option.map_eq_some_iff.mp hd
    exact lt_trans (length_getVarint32Ptr hvalue_length)
      (lt_trans (length_getVarint32Ptr hnon_shared) (length_getVarint32Ptr hshared))

/-! ## Iterator -/

/-- `Block::Iter`. A value is its offset and its length. -/
structure BlockIter where
  data_ : Bytes
  restarts_ : ℕ
  num_restarts_ : ℕ
  current_ : ℕ
  restart_index_ : ℕ
  key_ : Bytes
  value_ : ℕ × ℕ
  status_ : Status

namespace BlockIter

def new (data : Bytes) (restarts num_restarts : ℕ) : BlockIter :=
  ⟨data, restarts, num_restarts, restarts, num_restarts, [], (0, 0), .OK⟩

variable (it : BlockIter)

def Valid : Prop := it.current_ < it.restarts_

instance : Decidable it.Valid := inferInstanceAs (Decidable (_ < _))

/-- `value`. -/
def value : Bytes := (it.data_.drop it.value_.1).take it.value_.2

def NextEntryOffset : ℕ := it.value_.1 + it.value_.2

def GetRestartPoint (index : ℕ) : ℕ := (DecodeFixed32 (it.data_.drop (it.restarts_ + index * 4))).toNat

def SeekToRestartPoint (index : ℕ) : BlockIter :=
  { it with key_ := [], restart_index_ := index, value_ := (it.GetRestartPoint index, 0) }

def CorruptionError : BlockIter :=
  { it with
    current_ := it.restarts_
    restart_index_ := it.num_restarts_
    status_ := .Corruption "bad entry in block"
    key_ := []
    value_ := (0, 0) }

/-- The loop at the end of `ParseNextKey`. -/
def advanceRestart (current index : ℕ) : ℕ :=
  if index + 1 < it.num_restarts_ ∧ it.GetRestartPoint (index + 1) < current then
    advanceRestart current (index + 1)
  else index
termination_by it.num_restarts_ - index

/-- The bytes from an offset up to the restart points. -/
def region (offset : ℕ) : Bytes := (it.data_.take it.restarts_).drop offset

def ParseNextKey : Bool × BlockIter :=
  if it.restarts_ ≤ it.NextEntryOffset then
    (false, { it with current_ := it.restarts_, restart_index_ := it.num_restarts_ })
  else
    match DecodeEntry (it.region it.NextEntryOffset) with
    | some ((shared, non_shared, value_length), p) =>
      if it.key_.length < shared.toNat then (false, it.CorruptionError)
      else
        let offset := it.NextEntryOffset + ((it.region it.NextEntryOffset).length - p.length)
        (true, { it with
          current_ := it.NextEntryOffset
          restart_index_ := it.advanceRestart it.NextEntryOffset it.restart_index_
          key_ := it.key_.take shared.toNat ++ p.take non_shared.toNat
          value_ := (offset + non_shared.toNat, value_length.toNat) })
    | none => (false, it.CorruptionError)

/-- What is left to be parsed. -/
def unparsed : ℕ := it.restarts_ - it.NextEntryOffset

theorem unparsed_parseNextKey {it : BlockIter} (h : it.ParseNextKey.1 = true) :
    it.ParseNextKey.2.unparsed < it.unparsed := by
  rw [ParseNextKey] at h ⊢
  by_cases hend : it.restarts_ ≤ it.NextEntryOffset
  · rw [if_pos hend] at h
    cases h
  · rw [if_neg hend] at h ⊢
    cases hdecode : DecodeEntry (it.region it.NextEntryOffset) with
    | none =>
      rw [hdecode] at h
      cases h
    | some r =>
      obtain ⟨⟨shared, non_shared, value_length⟩, p⟩ := r
      have hlen := length_decodeEntry hdecode
      rw [hdecode] at h
      dsimp only at h hlen ⊢
      by_cases hshared : it.key_.length < shared.toNat
      · rw [if_pos hshared] at h
        cases h
      · rw [if_neg hshared]
        simp only [unparsed, NextEntryOffset] at hlen hend ⊢
        omega

/-- `do { } while (ParseNextKey() && NextEntryOffset() < original)`. -/
def skipTo (it : BlockIter) (original : ℕ) : BlockIter :=
  if _h : it.ParseNextKey.1 = true ∧ it.ParseNextKey.2.NextEntryOffset < original then
    it.ParseNextKey.2.skipTo original
  else it.ParseNextKey.2
termination_by it.unparsed
decreasing_by exact unparsed_parseNextKey _h.1

/-- The first loop of `Prev`: the last restart point before an offset, from `index` on backwards. -/
def rewind (original : ℕ) : ℕ → Option ℕ
  | 0 => if original ≤ it.GetRestartPoint 0 then none else some 0
  | index + 1 => if original ≤ it.GetRestartPoint (index + 1) then rewind original index else some (index + 1)

def Prev : BlockIter :=
  match it.rewind it.current_ it.restart_index_ with
  | none => { it with current_ := it.restarts_, restart_index_ := it.num_restarts_ }
  | some index => (it.SeekToRestartPoint index).skipTo it.current_

def Next : BlockIter := it.ParseNextKey.2

def SeekToFirst : BlockIter := (it.SeekToRestartPoint 0).ParseNextKey.2

def SeekToLast : BlockIter := (it.SeekToRestartPoint (it.num_restarts_ - 1)).skipTo it.restarts_

section Seek

variable (compare : Bytes → Bytes → Ordering) (target : Bytes)

/-- The binary search of `Seek`; `none` for a corrupted entry. -/
def searchRestart (left right : ℕ) : Option ℕ :=
  if left < right then
    match DecodeEntry (it.region (it.GetRestartPoint ((left + right + 1) / 2))) with
    | some ((shared, non_shared, _), key_ptr) =>
      if shared.toNat ≠ 0 then none
      else if compare (key_ptr.take non_shared.toNat) target = .lt then searchRestart ((left + right + 1) / 2) right
      else searchRestart left ((left + right + 1) / 2 - 1)
    | none => none
  else some left
termination_by right - left

/-- The linear search of `Seek`. -/
def scanFor (it : BlockIter) : BlockIter :=
  if _h : it.ParseNextKey.1 = true ∧ compare it.ParseNextKey.2.key_ target = .lt then
    scanFor it.ParseNextKey.2
  else it.ParseNextKey.2
termination_by it.unparsed
decreasing_by exact unparsed_parseNextKey _h.1

def Seek : BlockIter :=
  match it.searchRestart compare target 0 (it.num_restarts_ - 1) with
  | none => it.CorruptionError
  | some left => scanFor compare target (it.SeekToRestartPoint left)

end Seek

end BlockIter

/-! ## Block -/

structure Block where
  data_ : Bytes
  size_ : ℕ
  restart_offset_ : ℕ

def NumRestarts (data : Bytes) : ℕ := (DecodeFixed32 (data.drop (data.length - 4))).toNat

/-- The constructor: the size is zero for bad contents. -/
def Block.new (contents : Bytes) : Block :=
  if contents.length < 4 then ⟨contents, 0, 0⟩
  else if (contents.length - 4) / 4 < NumRestarts contents then ⟨contents, 0, 0⟩
  else ⟨contents, contents.length, contents.length - (1 + NumRestarts contents) * 4⟩

/-- `NewIterator`: an error, or an iterator, unless the block is empty. -/
def Block.NewIterator (b : Block) : Except Status (Option BlockIter) :=
  if b.size_ < 4 then .error (.Corruption "bad block contents")
  else if NumRestarts b.data_ = 0 then .ok none
  else .ok (some (.new b.data_ b.restart_offset_ (NumRestarts b.data_)))

end Inery.Leveldb
