import IneryPersistence.Leveldb.Crc32c

/-!
# The write-ahead log

A log is a sequence of blocks. A record is put into the room that the current block has left, in
fragments where that is too small, and each fragment has a header with its checksum, length and type.

* `RecordType`, `fragmentHeader`, `physicalRecord`: a fragment as it lies in a block;
* `Writer`, `Writer.AddRecord`, `Writer.addRecords`: what is appended for a record, and for many;
* `Reader`, `Reader.ReadPhysicalRecord`, `Reader.ReadRecord`, `Reader.records`: the records that are
  read back, and the drops that are reported.
-/

namespace Inery.Leveldb

open KV

/-! ## Format -/

inductive RecordType where
  | kZeroType
  | kFullType
  | kFirstType
  | kMiddleType
  | kLastType
  deriving DecidableEq, Repr

def RecordType.toNat : RecordType → ℕ
  | .kZeroType => 0
  | .kFullType => 1
  | .kFirstType => 2
  | .kMiddleType => 3
  | .kLastType => 4

def kMaxRecordType : ℕ := RecordType.kLastType.toNat

def kBlockSize : ℕ := 32768

def kHeaderSize : ℕ := 4 + 1 + 2

def RecordType.toByte (t : RecordType) : Byte := Fin.ofNat 256 t.toNat

/-- `type_crc_`. -/
def typeCrc (t : RecordType) : UInt32 := Value 0 [t.toByte]

/-- The header of a fragment. The addresses of the buffers are left out, since no checksum depends on
them (`extend_eq_castagnoli`). -/
def fragmentHeader (t : RecordType) (payload : Bytes) : Bytes :=
  EncodeFixed32 (Mask (Extend 0 (typeCrc t) payload)) ++
    [Fin.ofNat 256 (payload.length &&& 0xff), Fin.ofNat 256 (payload.length >>> 8), t.toByte]

def physicalRecord (t : RecordType) (payload : Bytes) : Bytes := fragmentHeader t payload ++ payload

/-! ## Writer -/

structure Writer where
  dest_ : Bytes
  block_offset_ : ℕ

/-- The constructor, on a new file. -/
def Writer.new : Writer := ⟨[], 0⟩

def Writer.EmitPhysicalRecord (w : Writer) (t : RecordType) (payload : Bytes) : Writer :=
  ⟨w.dest_ ++ physicalRecord t payload, w.block_offset_ + (kHeaderSize + payload.length)⟩

/-- A new block, when the current one has no room for a header; its trailer is filled up. -/
def Writer.switchBlock (w : Writer) : Writer :=
  let leftover := kBlockSize - w.block_offset_
  if leftover < kHeaderSize then ⟨w.dest_ ++ List.replicate leftover 0, 0⟩ else w

/-- The bytes that the block has left for a fragment. -/
def Writer.avail (w : Writer) : ℕ := kBlockSize - w.block_offset_ - kHeaderSize

/-- `fragment_length`, with so many bytes left. -/
def Writer.fragmentLength (w : Writer) (left : ℕ) : ℕ := if left < w.avail then left else w.avail

/-- The type of a fragment at the beginning or at the end of a record. -/
def fragmentType : Bool → Bool → RecordType
  | true, true => .kFullType
  | true, false => .kFirstType
  | false, true => .kLastType
  | false, false => .kMiddleType

/-- One pass of the loop of `AddRecord`: the writer after the fragment, and the bytes left. -/
def Writer.addFragment (w : Writer) (begin : Bool) (ptr : Bytes) : Writer × Bytes :=
  let w := w.switchBlock
  let fragment_length := w.fragmentLength ptr.length
  let t := fragmentType begin (ptr.length = fragment_length)
  (w.EmitPhysicalRecord t (ptr.take fragment_length), ptr.drop fragment_length)

/-- One when the block has room for nothing but a header. -/
def Writer.onlyHeader (w : Writer) : ℕ := if w.block_offset_ + kHeaderSize = kBlockSize then 1 else 0

/-- A fragment takes bytes of the record, or it is empty and the next one begins a block. -/
theorem Writer.addFragment_decreases (w : Writer) (begin : Bool) {ptr : Bytes}
    (h : (w.addFragment begin ptr).2 ≠ []) :
    Prod.Lex (· < ·) (· < ·) ((w.addFragment begin ptr).2.length, (w.addFragment begin ptr).1.onlyHeader)
      (ptr.length, w.onlyHeader) := by
  have hleft : ptr ≠ [] := fun hnil => h (by rw [hnil, Writer.addFragment, List.drop_nil])
  have hpos : 0 < ptr.length := List.length_pos_iff.mpr hleft
  have hblock : kBlockSize = 32768 := rfl
  have hheader : kHeaderSize = 7 := rfl
  by_cases havail : w.switchBlock.avail = 0
  · have hroom : w.switchBlock = w ∧ w.block_offset_ + kHeaderSize = kBlockSize := by
      revert havail
      unfold Writer.avail Writer.switchBlock
      simp only
      split_ifs with hl
      · intro havail
        dsimp only at havail
        omega
      · intro havail
        exact ⟨rfl, by omega⟩
    have hadd : w.addFragment begin ptr =
        (w.EmitPhysicalRecord (fragmentType begin (ptr.length = 0)) [], ptr) := by
      rw [hroom.1] at havail
      unfold Writer.addFragment
      dsimp only
      rw [hroom.1, Writer.fragmentLength, havail, if_neg (Nat.not_lt_zero _), List.take_zero, List.drop_zero]
    have hafter : (w.EmitPhysicalRecord (fragmentType begin (ptr.length = 0)) []).onlyHeader = 0 := by
      unfold Writer.onlyHeader Writer.EmitPhysicalRecord
      dsimp only [List.length_nil]
      rw [if_neg (by omega)]
    have hbefore : w.onlyHeader = 1 := by rw [Writer.onlyHeader, if_pos hroom.2]
    rw [hadd, hafter, hbefore]
    exact Prod.Lex.right _ Nat.zero_lt_one
  · refine Prod.Lex.left _ _ ?_
    change (ptr.drop (w.switchBlock.fragmentLength ptr.length)).length < _
    rw [List.length_drop, Writer.fragmentLength]
    split_ifs <;> omega

/-- The loop of `AddRecord`. -/
def Writer.addFragments (w : Writer) (begin : Bool) (ptr : Bytes) : Writer :=
  if (w.addFragment begin ptr).2 = [] then (w.addFragment begin ptr).1
  else (w.addFragment begin ptr).1.addFragments false (w.addFragment begin ptr).2
termination_by (ptr.length, w.onlyHeader)
decreasing_by exact w.addFragment_decreases begin (by assumption)

/-- An empty record has one fragment as well. -/
def Writer.AddRecord (w : Writer) (slice : Bytes) : Writer := w.addFragments true slice

/-- Many records, one after the other. -/
def Writer.addRecords (w : Writer) (l : List Bytes) : Writer := l.foldl Writer.AddRecord w

/-! ## Reader -/

structure Reader where
  /-- What has not been read from the file. -/
  file_ : Bytes
  checksum_ : Bool
  buffer_ : Bytes
  eof_ : Bool
  last_record_offset_ : ℕ
  end_of_buffer_offset_ : ℕ
  initial_offset_ : ℕ
  /-- What has been reported to `reporter_`: numbers of bytes, with the reasons. -/
  drops : List (ℕ × String)

/-- The constructor. -/
def Reader.new (file : Bytes) (checksum : Bool) (initial_offset : ℕ) : Reader :=
  ⟨file, checksum, [], false, 0, 0, initial_offset, []⟩

def kEof : ℕ := kMaxRecordType + 1

def kBadRecord : ℕ := kMaxRecordType + 2

def Reader.ReportCorruption (r : Reader) (bytes : ℕ) (reason : String) : Reader :=
  if r.initial_offset_ ≤ r.end_of_buffer_offset_ - r.buffer_.length - bytes then
    { r with drops := r.drops ++ [(bytes, reason)] }
  else r

def Reader.SkipToInitialBlock (r : Reader) : Reader :=
  let offset_in_block := r.initial_offset_ % kBlockSize
  let block_start_location := r.initial_offset_ - offset_in_block
  let start := if kBlockSize - 6 < offset_in_block then block_start_location + kBlockSize else block_start_location
  { r with end_of_buffer_offset_ := start, file_ := r.file_.drop start }

/-- `file_->Read(kBlockSize, &buffer_, backing_store_)`, which does not fail. -/
def Reader.fill (r : Reader) : Reader :=
  { r with
    buffer_ := r.file_.take kBlockSize
    file_ := r.file_.drop kBlockSize
    end_of_buffer_offset_ := r.end_of_buffer_offset_ + (r.file_.take kBlockSize).length
    eof_ := (r.file_.take kBlockSize).length < kBlockSize }

/-- The bytes that have not been parsed, and one for the end of the file. -/
def Reader.unread (r : Reader) : ℕ := r.file_.length + r.buffer_.length + if r.eof_ then 0 else 1

/-- A `char` as an `unsigned int`. -/
def unsignedOf (c : Byte) : ℕ := if c.val < 128 then c.val else 2 ^ 32 - 256 + c.val

/-- `ReadPhysicalRecord`, with a whole header in the buffer. -/
def Reader.parsePhysicalRecord (r : Reader) : ℕ × Bytes × Reader :=
  let header := r.buffer_
  let a := (header.getD 4 0).val &&& 0xff
  let b := (header.getD 5 0).val &&& 0xff
  let type := unsignedOf (header.getD 6 0)
  let length := a ||| (b <<< 8)
  if r.buffer_.length < kHeaderSize + length then
    if r.eof_ then (kEof, [], { r with buffer_ := [] })
    else (kBadRecord, [], { r with buffer_ := [] }.ReportCorruption r.buffer_.length "bad record length")
  else if type = RecordType.kZeroType.toNat ∧ length = 0 then (kBadRecord, [], { r with buffer_ := [] })
  else if r.checksum_ ∧ Value 0 ((header.drop 6).take (1 + length)) ≠ Unmask (DecodeFixed32 header) then
    (kBadRecord, [], { r with buffer_ := [] }.ReportCorruption r.buffer_.length "checksum mismatch")
  else
    let r' := { r with buffer_ := r.buffer_.drop (kHeaderSize + length) }
    if r'.end_of_buffer_offset_ - r'.buffer_.length - kHeaderSize - length < r'.initial_offset_ then
      (kBadRecord, [], r')
    else (type, (header.drop kHeaderSize).take length, r')

theorem Reader.fill_decreases {r : Reader} (h : ¬ r.eof_) :
    (r.fill.file_.length + if r.fill.eof_ then 0 else 1) < r.file_.length + if r.eof_ then 0 else 1 := by
  have hblock : 0 < kBlockSize := by decide
  rw [if_neg h]
  unfold Reader.fill
  dsimp only
  rw [List.length_drop, List.length_take]
  split_ifs with hfull
  · omega
  · rw [decide_eq_true_eq] at hfull
    omega

/-- The type of the next fragment or one of `kEof` and `kBadRecord`, its payload, and the reader
after it. -/
def Reader.ReadPhysicalRecord (r : Reader) : ℕ × Bytes × Reader :=
  if r.buffer_.length < kHeaderSize then
    -- a header that was cut off at the end of the file is no error
    if r.eof_ then (kEof, [], { r with buffer_ := [] }) else r.fill.ReadPhysicalRecord
  else r.parsePhysicalRecord
termination_by r.file_.length + if r.eof_ then 0 else 1
decreasing_by exact Reader.fill_decreases (by assumption)

theorem Reader.unread_fill (r : Reader) (h : ¬ r.eof_) : r.fill.unread ≤ r.unread := by
  unfold Reader.unread Reader.fill
  dsimp only
  rw [if_neg h, List.length_take, List.length_drop]
  split_ifs <;> omega

theorem Reader.unread_reportCorruption (r : Reader) (bytes : ℕ) (reason : String) :
    (r.ReportCorruption bytes reason).unread = r.unread := by
  rw [Reader.ReportCorruption]
  split_ifs <;> rfl

theorem Reader.unread_parsePhysicalRecord {r : Reader} (hr : kHeaderSize ≤ r.buffer_.length)
    (h : r.parsePhysicalRecord.1 ≠ kEof) : r.parsePhysicalRecord.2.2.unread < r.unread := by
  have hheader : kHeaderSize = 7 := rfl
  have hclear : ({ r with buffer_ := [] } : Reader).unread < r.unread := by
    unfold Reader.unread
    dsimp only [List.length_nil]
    omega
  have hdrop : ∀ n, ({ r with buffer_ := r.buffer_.drop (kHeaderSize + n) } : Reader).unread < r.unread := by
    intro n
    unfold Reader.unread
    dsimp only
    rw [List.length_drop]
    omega
  revert h
  unfold Reader.parsePhysicalRecord
  dsimp only
  split_ifs
  · exact fun h => absurd rfl h
  · exact fun _ => by rwa [Reader.unread_reportCorruption]
  · exact fun _ => hclear
  · exact fun _ => by rwa [Reader.unread_reportCorruption]
  · exact fun _ => hdrop _
  · exact fun _ => hdrop _

theorem Reader.unread_readPhysicalRecord {r : Reader} (h : r.ReadPhysicalRecord.1 ≠ kEof) :
    r.ReadPhysicalRecord.2.2.unread < r.unread := by
  induction r using Reader.ReadPhysicalRecord.induct with
  | case1 r hshort heof =>
    rw [Reader.ReadPhysicalRecord, if_pos hshort, if_pos heof] at h
    exact absurd rfl h
  | case2 r hshort heof ih =>
    rw [Reader.ReadPhysicalRecord, if_pos hshort, if_neg heof] at h ⊢
    exact lt_of_lt_of_le (ih h) (r.unread_fill heof)
  | case3 r hlong =>
    rw [Reader.ReadPhysicalRecord, if_neg hlong] at h ⊢
    exact Reader.unread_parsePhysicalRecord (not_lt.mp hlong) h

/-- A record that was begun and not ended, when the next one begins; an empty one is not reported. -/
def Reader.reportPartial (r : Reader) (in_fragmented_record : Bool) (scratch : Bytes) (reason : String) : Reader :=
  if in_fragmented_record ∧ scratch ≠ [] then r.ReportCorruption scratch.length reason else r

theorem Reader.unread_reportPartial (r : Reader) (in_fragmented_record : Bool) (scratch : Bytes) (reason : String) :
    (r.reportPartial in_fragmented_record scratch reason).unread = r.unread := by
  rw [Reader.reportPartial]
  split_ifs
  · exact r.unread_reportCorruption _ _
  · rfl

/-- What one pass of the loop of `ReadRecord` leads to: it returns, with a record or at the end of the
file, or it goes on with `scratch`, `in_fragmented_record` and `prospective_record_offset`. -/
inductive Pass where
  | returns (record : Option Bytes) (r : Reader)
  | continues (r : Reader) (scratch : Bytes) (in_fragmented_record : Bool) (prospective_record_offset : ℕ)

/-- The `switch` of `ReadRecord`, on a fragment that begins at `physical_record_offset`. -/
def Reader.onFragment (r : Reader) (record_type : ℕ) (fragment scratch : Bytes) (in_fragmented_record : Bool)
    (physical_record_offset prospective_record_offset : ℕ) : Pass :=
  if record_type = RecordType.kFullType.toNat then
    .returns (some fragment)
      { r.reportPartial in_fragmented_record scratch "partial record without end(1)" with
        last_record_offset_ := physical_record_offset }
  else if record_type = RecordType.kFirstType.toNat then
    .continues (r.reportPartial in_fragmented_record scratch "partial record without end(2)") fragment true
      physical_record_offset
  else if record_type = RecordType.kMiddleType.toNat then
    if in_fragmented_record then .continues r (scratch ++ fragment) true prospective_record_offset
    else
      .continues (r.ReportCorruption fragment.length "missing start of fragmented record(1)") scratch false
        prospective_record_offset
  else if record_type = RecordType.kLastType.toNat then
    if in_fragmented_record then
      .returns (some (scratch ++ fragment)) { r with last_record_offset_ := prospective_record_offset }
    else
      .continues (r.ReportCorruption fragment.length "missing start of fragmented record(2)") scratch false
        prospective_record_offset
  else if record_type = kEof then .returns none r
  else if record_type = kBadRecord then
    if in_fragmented_record then
      .continues (r.ReportCorruption scratch.length "error in middle of record") [] false prospective_record_offset
    else .continues r scratch false prospective_record_offset
  else
    .continues
      (r.ReportCorruption (fragment.length + if in_fragmented_record then scratch.length else 0)
        ("unknown record type " ++ toString record_type)) [] false prospective_record_offset

/-- One pass of the loop of `ReadRecord`. -/
def Reader.pass (r : Reader) (scratch : Bytes) (in_fragmented_record : Bool) (prospective_record_offset : ℕ) :
    Pass :=
  let p := r.ReadPhysicalRecord
  p.2.2.onFragment p.1 p.2.1 scratch in_fragmented_record (r.end_of_buffer_offset_ - r.buffer_.length)
    prospective_record_offset

/-- The reader after a pass, unless the end of the file was reached. -/
def Pass.goesOn : Pass → Option Reader
  | .returns (some _) r => some r
  | .returns none _ => none
  | .continues r _ _ _ => some r

theorem Reader.goesOn_onFragment {r r' : Reader} {record_type : ℕ} {fragment scratch : Bytes}
    {in_fragmented_record : Bool} {offset offset' : ℕ}
    (h : (r.onFragment record_type fragment scratch in_fragmented_record offset offset').goesOn = some r') :
    record_type ≠ kEof ∧ r'.unread = r.unread := by
  revert h
  unfold Reader.onFragment
  split_ifs with h1 h2 h3 _ h4 _ h5 <;> intro h <;> cases h
  all_goals refine ⟨by first | assumption | (rw [‹record_type = _›]; decide), ?_⟩
  all_goals
    first
    | rfl
    | exact r.unread_reportCorruption _ _
    | exact r.unread_reportPartial _ _ _

theorem Reader.unread_pass {r r' : Reader} {scratch : Bytes} {in_fragmented_record : Bool} {offset : ℕ}
    (h : (r.pass scratch in_fragmented_record offset).goesOn = some r') : r'.unread < r.unread := by
  obtain ⟨hne, heq⟩ := Reader.goesOn_onFragment h
  rw [heq]
  exact Reader.unread_readPhysicalRecord hne

/-- The loop of `ReadRecord`: the record, if there is one, and the reader after it. -/
def Reader.readFragments (r : Reader) (scratch : Bytes) (in_fragmented_record : Bool)
    (prospective_record_offset : ℕ) : Option Bytes × Reader :=
  match _h : r.pass scratch in_fragmented_record prospective_record_offset with
  | .returns record r' => (record, r')
  | .continues r' scratch in_fragmented_record prospective_record_offset =>
    r'.readFragments scratch in_fragmented_record prospective_record_offset
termination_by r.unread
decreasing_by exact Reader.unread_pass (congrArg Pass.goesOn _h)

section ReadFragments

variable {r r' : Reader} {scratch scratch' : Bytes} {in_fragmented_record in_fragmented_record' : Bool}
  {offset offset' : ℕ}

theorem Reader.readFragments_returns {record : Option Bytes}
    (h : r.pass scratch in_fragmented_record offset = .returns record r') :
    r.readFragments scratch in_fragmented_record offset = (record, r') := by
  rw [Reader.readFragments, h]

theorem Reader.readFragments_continues
    (h : r.pass scratch in_fragmented_record offset = .continues r' scratch' in_fragmented_record' offset') :
    r.readFragments scratch in_fragmented_record offset =
      r'.readFragments scratch' in_fragmented_record' offset' := by
  rw [Reader.readFragments, h]

theorem Reader.unread_readFragments {record : Bytes}
    (h : (r.readFragments scratch in_fragmented_record offset).1 = some record) :
    (r.readFragments scratch in_fragmented_record offset).2.unread < r.unread := by
  induction r, scratch, in_fragmented_record, offset using Reader.readFragments.induct with
  | case1 r scratch in_fragmented_record offset record' r' hpass =>
    rw [Reader.readFragments_returns hpass] at h ⊢
    exact Reader.unread_pass ((congrArg Pass.goesOn hpass).trans (by rw [show record' = some record from h]; rfl))
  | case2 r scratch in_fragmented_record offset r' scratch' in_fragmented_record' offset' hpass ih =>
    rw [Reader.readFragments_continues hpass] at h ⊢
    exact lt_trans (ih h) (Reader.unread_pass (congrArg Pass.goesOn hpass))

end ReadFragments

/-- `ReadRecord`: the record, if there is one, and the reader after it. -/
def Reader.ReadRecord (r : Reader) : Option Bytes × Reader :=
  (if r.last_record_offset_ < r.initial_offset_ then r.SkipToInitialBlock else r).readFragments [] false 0

theorem Reader.unread_readRecord {r : Reader} {record : Bytes} (h : r.ReadRecord.1 = some record) :
    r.ReadRecord.2.unread < r.unread := by
  refine lt_of_lt_of_le (Reader.unread_readFragments h) ?_
  split_ifs
  · unfold Reader.unread Reader.SkipToInitialBlock
    dsimp only
    rw [List.length_drop]
    omega
  · exact le_rfl

/-- The records that are read until there is none, and the reader after them. -/
def Reader.records (r : Reader) : List Bytes × Reader :=
  match _h : r.ReadRecord.1 with
  | none => ([], r.ReadRecord.2)
  | some record => (record :: r.ReadRecord.2.records.1, r.ReadRecord.2.records.2)
termination_by r.unread
decreasing_by all_goals exact Reader.unread_readRecord _h

theorem Reader.records_none {r r' : Reader} (h : r.ReadRecord = (none, r')) : r.records = ([], r') := by
  rw [Reader.records, h]

theorem Reader.records_some {r r' : Reader} {record : Bytes} (h : r.ReadRecord = (some record, r')) :
    r.records = (record :: r'.records.1, r'.records.2) := by
  rw [Reader.records, h]

end Inery.Leveldb
