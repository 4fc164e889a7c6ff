import IneryPersistence.Db.Access
import IneryPersistence.Leveldb.Coding

/-!
# Batches of updates

* `Status`, `ValueType`: the results and the tags of LevelDB;
* `WriteBatch`, `Put`, `Delete`, `Append`, `SetSequence`, `Iterate`: a batch as one string of bytes;
* `WriteBatch.Encodes`: the updates that a batch holds, kept by every operation;
* **`WriteBatch.Encodes.iterate`**: exactly these are handed over, in their order.
-/

namespace Inery.Leveldb

open KV LittleEndian

inductive Status where
  | OK
  | NotFound
  | Corruption (msg : String)
  deriving DecidableEq, Repr

inductive ValueType where
  | kTypeDeletion
  | kTypeValue
  deriving DecidableEq, Repr

def ValueType.toNat : ValueType → ℕ
  | .kTypeDeletion => 0
  | .kTypeValue => 1

def ValueType.toByte (t : ValueType) : Byte := Fin.ofNat 256 t.toNat

/-- `WriteBatch`: 8 bytes of sequence number, 4 bytes of count, and the updates. -/
structure WriteBatch where
  rep_ : Bytes

def kHeader : ℕ := 12

namespace WriteBatch

/-- The constructor, and `Clear`. -/
def Clear : WriteBatch := ⟨List.replicate kHeader 0⟩

/-- `WriteBatchInternal::Count`. -/
def Count (b : WriteBatch) : Int32 := (DecodeFixed32 (b.rep_.drop 8)).toInt32

/-- `WriteBatchInternal::SetCount`. -/
def SetCount (b : WriteBatch) (n : Int32) : WriteBatch :=
  ⟨b.rep_.take 8 ++ (EncodeFixed32 n.toUInt32 ++ b.rep_.drop 12)⟩

/-- `WriteBatchInternal::Sequence`. -/
def Sequence (b : WriteBatch) : UInt64 := DecodeFixed64 b.rep_

/-- `WriteBatchInternal::SetSequence`. -/
def SetSequence (b : WriteBatch) (seq : UInt64) : WriteBatch := ⟨EncodeFixed64 seq ++ b.rep_.drop 8⟩

def Put (b : WriteBatch) (key value : Bytes) : WriteBatch :=
  ⟨(b.SetCount (b.Count + 1)).rep_ ++ ([ValueType.kTypeValue.toByte] ++
    (PutLengthPrefixedSlice key ++ PutLengthPrefixedSlice value))⟩

def Delete (b : WriteBatch) (key : Bytes) : WriteBatch :=
  ⟨(b.SetCount (b.Count + 1)).rep_ ++ ([ValueType.kTypeDeletion.toByte] ++ PutLengthPrefixedSlice key)⟩

/-- `WriteBatchInternal::SetContents`. -/
def SetContents (contents : Bytes) : WriteBatch := ⟨contents⟩

/-- `WriteBatchInternal::Append`. -/
def Append (dst src : WriteBatch) : WriteBatch :=
  ⟨(dst.SetCount (dst.Count + src.Count)).rep_ ++ src.rep_.drop kHeader⟩

/-- One pass of the loop of `Iterate`: the call of the handler, and the input that is left. -/
def nextUpdate (tag : Byte) (input : Bytes) : Except String (BatchOp × Bytes) :=
  if tag = ValueType.kTypeValue.toByte then
    match (GetLengthPrefixedSlice input).bind fun key =>
      (GetLengthPrefixedSlice key.2).map fun value => (BatchOp.put key.1 value.1, value.2) with
    | some r => .ok r
    | none => .error "bad WriteBatch Put"
  else if tag = ValueType.kTypeDeletion.toByte then
    match (GetLengthPrefixedSlice input).map fun key => (BatchOp.delete key.1, key.2) with
    | some r => .ok r
    | none => .error "bad WriteBatch Delete"
  else .error "unknown WriteBatch tag"

theorem length_nextUpdate {tag : Byte} {input : Bytes} {r : BatchOp × Bytes}
    (h : nextUpdate tag input = .ok r) : r.2.length < input.length := by
  rw [nextUpdate] at h
  split_ifs at h
  · cases hput : (GetLengthPrefixedSlice input).bind fun key =>
        (GetLengthPrefixedSlice key.2).map fun value => (BatchOp.put key.1 value.1, value.2) with
    | none =>
      rw [hput] at h
      cases h
    | some r' =>
      rw [hput] at h
      cases h
      obtain ⟨key, hkey, hrest⟩ := Option.bind_eq_some_iff.mp hput
      obtain ⟨value, hvalue, rfl⟩ := Option.map_eq_some_iff.mp hrest
      exact lt_trans (length_getLengthPrefixedSlice hvalue) (length_getLengthPrefixedSlice hkey)
  · cases hdel : (GetLengthPrefixedSlice input).map fun key => (BatchOp.delete key.1, key.2) with
    | none =>
      rw [hdel] at h
      cases h
    | some r' =>
      rw [hdel] at h
      cases h
      obtain ⟨key, hkey, rfl⟩ := Option.map_eq_some_iff.mp hdel
      exact length_getLengthPrefixedSlice hkey

/-- The loop of `Iterate`: the calls of the handler, and the message of an error or the number of updates. -/
def iterateLoop (found : Int32) : Bytes → List BatchOp × Except String Int32
  | [] => ([], .ok found)
  | tag :: input =>
    match _h : nextUpdate tag input with
    | .ok r => (r.1 :: (iterateLoop (found + 1) r.2).1, (iterateLoop (found + 1) r.2).2)
    | .error msg => ([], .error msg)
termination_by input => input.length
decreasing_by all_goals exact Nat.lt_succ_of_lt (length_nextUpdate _h)

/-- `Iterate`: the calls of the handler, in their order, and the status. -/
def Iterate (b : WriteBatch) : List BatchOp × Status :=
  if b.rep_.length < kHeader then ([], .Corruption "malformed WriteBatch (too small)")
  else
    let r := iterateLoop 0 (b.rep_.drop kHeader)
    (r.1, match r.2 with
      | .error msg => .Corruption msg
      | .ok found => if found ≠ b.Count then .Corruption "WriteBatch has wrong count" else .OK)

/-! ## What a batch holds -/

/-- The bytes of an update. -/
def updateBytes : BatchOp → Bytes
  | .put key value => ValueType.kTypeValue.toByte :: (PutLengthPrefixedSlice key ++ PutLengthPrefixedSlice value)
  | .delete key => ValueType.kTypeDeletion.toByte :: PutLengthPrefixedSlice key

/-- The lengths of the key, also with a sequence number behind it, and of the value are numbers of 32 bits. -/
def SizesFit : BatchOp → Prop
  | .put key value => key.length + 8 < 2 ^ 32 ∧ value.length < 2 ^ 32
  | .delete key => key.length + 8 < 2 ^ 32

instance : DecidablePred SizesFit
  | .put key value => inferInstanceAs (Decidable (key.length + 8 < 2 ^ 32 ∧ value.length < 2 ^ 32))
  | .delete key => inferInstanceAs (Decidable (key.length + 8 < 2 ^ 32))

/-- The batch has the sequence number and holds the updates. -/
def Encodes (b : WriteBatch) (seq : UInt64) (ops : List BatchOp) : Prop :=
  b.rep_ = EncodeFixed64 seq ++ (EncodeFixed32 (Int32.ofNat ops.length).toUInt32 ++ ops.flatMap updateBytes)

variable {b b' : WriteBatch} {seq seq' : UInt64} {ops ops' : List BatchOp}

theorem encodes_clear : Clear.Encodes 0 [] := rfl

theorem Encodes.drop_eight (h : b.Encodes seq ops) :
    b.rep_.drop 8 = EncodeFixed32 (Int32.ofNat ops.length).toUInt32 ++ ops.flatMap updateBytes := by
  rw [h, List.drop_left' (length_encodeFixed64 seq)]

theorem Encodes.drop_header (h : b.Encodes seq ops) : b.rep_.drop kHeader = ops.flatMap updateBytes := by
  have hsplit : b.rep_.drop kHeader = (b.rep_.drop 8).drop 4 := by rw [List.drop_drop, kHeader]
  rw [hsplit, h.drop_eight, List.drop_left' (length_encodeFixed32 _)]

theorem Encodes.count (h : b.Encodes seq ops) : b.Count = Int32.ofNat ops.length := by
  rw [Count, h.drop_eight, decodeFixed32_encodeFixed32]
  rfl

theorem Encodes.sequence (h : b.Encodes seq ops) : b.Sequence = seq := by
  rw [Sequence, h, decodeFixed64_encodeFixed64]

theorem Encodes.setSequence (h : b.Encodes seq ops) (seq' : UInt64) : (b.SetSequence seq').Encodes seq' ops := by
  rw [Encodes, SetSequence, h.drop_eight]

theorem Encodes.setCount (h : b.Encodes seq ops) (n : Int32) :
    (b.SetCount n).rep_ = EncodeFixed64 seq ++ (EncodeFixed32 n.toUInt32 ++ ops.flatMap updateBytes) := by
  have htake : b.rep_.take 8 = EncodeFixed64 seq := by rw [h, List.take_left' (length_encodeFixed64 seq)]
  rw [SetCount, htake]
  exact congrArg (fun l => EncodeFixed64 seq ++ (EncodeFixed32 n.toUInt32 ++ l)) h.drop_header

theorem Encodes.append_bytes (h : b.Encodes seq ops) (ops' : List BatchOp) (n : ℕ) (hn : n = ops'.length) :
    WriteBatch.Encodes ⟨(b.SetCount (b.Count + Int32.ofNat n)).rep_ ++ ops'.flatMap updateBytes⟩ seq
      (ops ++ ops') := by
  rw [Encodes, h.setCount, h.count, ← Int32.ofNat_add, hn, List.length_append, List.flatMap_append,
    List.append_assoc, List.append_assoc]

theorem Encodes.put (h : b.Encodes seq ops) (key value : Bytes) :
    (b.Put key value).Encodes seq (ops ++ [.put key value]) := by
  have happ := h.append_bytes [.put key value] 1 rfl
  rwa [List.flatMap_cons, List.flatMap_nil, List.append_nil] at happ

theorem Encodes.delete (h : b.Encodes seq ops) (key : Bytes) :
    (b.Delete key).Encodes seq (ops ++ [.delete key]) := by
  have happ := h.append_bytes [.delete key] 1 rfl
  rwa [List.flatMap_cons, List.flatMap_nil, List.append_nil] at happ

theorem Encodes.append (h : b.Encodes seq ops) (h' : b'.Encodes seq' ops') :
    (b.Append b').Encodes seq (ops ++ ops') := by
  rw [Append, h'.drop_header, h'.count]
  exact h.append_bytes ops' ops'.length rfl

theorem iterateLoop_updateBytes (found : Int32) {op : BatchOp} (hop : SizesFit op) (rest : Bytes) :
    iterateLoop found (updateBytes op ++ rest) =
      (op :: (iterateLoop (found + 1) rest).1, (iterateLoop (found + 1) rest).2) := by
  cases op with
  | put key value =>
    have hnext : nextUpdate ValueType.kTypeValue.toByte
        (PutLengthPrefixedSlice key ++ PutLengthPrefixedSlice value ++ rest) = .ok (.put key value, rest) := by
      rw [nextUpdate, if_pos rfl, List.append_assoc,
        getLengthPrefixedSlice_put (lt_of_le_of_lt (Nat.le_add_right _ 8) hop.1), Option.bind_some,
        getLengthPrefixedSlice_put hop.2]
      rfl
    rw [updateBytes, List.cons_append, iterateLoop, hnext]
  | delete key =>
    have hne : ValueType.kTypeDeletion.toByte ≠ ValueType.kTypeValue.toByte := by decide
    have hnext : nextUpdate ValueType.kTypeDeletion.toByte (PutLengthPrefixedSlice key ++ rest) =
        .ok (.delete key, rest) := by
      rw [nextUpdate, if_neg hne, if_pos rfl, getLengthPrefixedSlice_put (lt_of_le_of_lt (Nat.le_add_right _ 8) hop)]
      rfl
    rw [updateBytes, List.cons_append, iterateLoop, hnext]

theorem iterateLoop_flatMap (found : Int32) (hops : ∀ op ∈ ops, SizesFit op) :
    iterateLoop found (ops.flatMap updateBytes) = (ops, .ok (found + Int32.ofNat ops.length)) := by
  induction ops generalizing found with
  | nil =>
    have hzero : found + Int32.ofNat 0 = found := Int32.add_zero found
    rw [List.flatMap_nil, iterateLoop, List.length_nil, hzero]
  | cons op ops ih =>
    have hcount : found + 1 + Int32.ofNat ops.length = found + Int32.ofNat (ops.length + 1) := by
      rw [Int32.add_assoc, Nat.add_comm, Int32.ofNat_add]
      rfl
    rw [List.flatMap_cons, iterateLoop_updateBytes found (hops op List.mem_cons_self),
      ih _ fun op' hop => hops op' (List.mem_cons_of_mem _ hop), List.length_cons, hcount]

/-- **The updates of a batch are handed over**, in their order. -/
theorem Encodes.iterate (h : b.Encodes seq ops) (hops : ∀ op ∈ ops, SizesFit op) : b.Iterate = (ops, .OK) := by
  have hlen : ¬ b.rep_.length < kHeader := by
    rw [h, List.length_append, length_encodeFixed64, List.length_append, length_encodeFixed32, kHeader]
    omega
  have hcount : ¬ (0 + Int32.ofNat ops.length) ≠ b.Count := by
    rw [h.count, Int32.zero_add]
    exact not_not.mpr rfl
  rw [Iterate, if_neg hlen, h.drop_header, iterateLoop_flatMap 0 hops]
  dsimp only
  rw [if_neg hcount]

end WriteBatch

end Inery.Leveldb
