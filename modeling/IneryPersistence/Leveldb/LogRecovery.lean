import IneryPersistence.Leveldb.Log
import Mathlib.Tactic.Ring

/-!
# A log that was cut off

* `Writer.Aligned`: where a writer is in its block;
* `Reader.InBlock`: a reader that has parsed a file up to a position;
* `readPhysicalRecord_at`: it reads the fragment that was written there, or finds the end of the file;
* `readFragments_addFragments`: it reads the record that was written there, or none;
* **`records_cut`**: of a log that was cut off anywhere, exactly the records that were wholly written
  are read back, and no drop is reported.
-/

namespace Inery.Leveldb

open KV

/-! ## Fragments -/

@[simp] theorem length_fragmentHeader (t : RecordType) (payload : Bytes) :
    (fragmentHeader t payload).length = kHeaderSize := by
  rw [fragmentHeader, List.length_append, length_encodeFixed32]
  rfl

@[simp] theorem length_physicalRecord (t : RecordType) (payload : Bytes) :
    (physicalRecord t payload).length = kHeaderSize + payload.length := by
  rw [physicalRecord, List.length_append, length_fragmentHeader]

theorem length_of_bytes {n : ℕ} (h : n < 2 ^ 16) :
    (Fin.ofNat 256 (n &&& 0xff) : Byte).val &&& 0xff ||| (((Fin.ofNat 256 (n >>> 8) : Byte).val &&& 0xff) <<< 8) =
      n := by
  have hlow : n &&& 0xff = n % 2 ^ 8 := Nat.and_two_pow_sub_one_eq_mod n 8
  have hhigh : n >>> 8 = n / 2 ^ 8 := Nat.shiftRight_eq_div_pow n 8
  have hand : ∀ b : Byte, b.val &&& 0xff = b.val := fun b =>
    Nat.and_two_pow_sub_one_of_lt_two_pow (n := 8) b.isLt
  have hlowval : (Fin.ofNat 256 (n % 2 ^ 8) : Byte).val = n % 2 ^ 8 := Nat.mod_mod _ _
  have hhighval : (Fin.ofNat 256 (n / 2 ^ 8) : Byte).val = n / 2 ^ 8 := Nat.mod_eq_of_lt (by omega)
  rw [hlow, hhigh, hand, hand, hlowval, hhighval, Nat.shiftLeft_eq, Nat.or_comm, Nat.mul_comm,
    ← Nat.two_pow_add_eq_or_of_lt (Nat.mod_lt _ (by omega))]
  omega

theorem unsignedOf_toByte (t : RecordType) : unsignedOf t.toByte = t.toNat := by
  cases t <;> rfl

theorem value_fragment (t : RecordType) (payload : Bytes) :
    Value 0 (t.toByte :: payload) = Extend 0 (typeCrc t) payload := by
  rw [Value, typeCrc, Value, extend_eq_castagnoli, extend_eq_castagnoli, extend_eq_castagnoli, ← castagnoli_append]
  rfl

theorem getD_fragmentHeader (t : RecordType) (payload rest : Bytes) (n : ℕ) :
    (fragmentHeader t payload ++ rest).getD (4 + n) 0 = (Fin.ofNat 256 (payload.length &&& 0xff) ::
      Fin.ofNat 256 (payload.length >>> 8) :: t.toByte :: rest).getD n 0 := by
  rw [fragmentHeader, List.append_assoc, List.getD_append_right _ _ _ _ (by rw [length_encodeFixed32]; omega),
    length_encodeFixed32, Nat.add_sub_cancel_left]
  rfl

theorem length_of_header {t : RecordType} {payload : Bytes} (h : payload.length < 2 ^ 16) (rest : Bytes) :
    ((fragmentHeader t payload ++ rest).getD 4 0).val &&& 0xff |||
      ((((fragmentHeader t payload ++ rest).getD 5 0).val &&& 0xff) <<< 8) = payload.length := by
  rw [getD_fragmentHeader t payload rest 0, getD_fragmentHeader t payload rest 1]
  exact length_of_bytes h

theorem parsePhysicalRecord_of_append {r : Reader} {t : RecordType} {payload rest : Bytes}
    (hr : r.buffer_ = physicalRecord t payload ++ rest) (ht : t ≠ .kZeroType) (hlen : payload.length < 2 ^ 16)
    (hoff : r.initial_offset_ = 0) :
    r.parsePhysicalRecord = (t.toNat, payload, { r with buffer_ := rest }) := by
  have hbuf : r.buffer_ = fragmentHeader t payload ++ (payload ++ rest) := by
    rw [hr, physicalRecord, List.append_assoc]
  have htype : unsignedOf (r.buffer_.getD 6 0) = t.toNat := by
    rw [hbuf, getD_fragmentHeader t payload _ 2]
    exact unsignedOf_toByte t
  have hlength : (r.buffer_.getD 4 0).val &&& 0xff ||| (((r.buffer_.getD 5 0).val &&& 0xff) <<< 8) =
      payload.length := by
    rw [hbuf, length_of_header hlen]
  have hcrc : Value 0 ((r.buffer_.drop 6).take (1 + payload.length)) = Unmask (DecodeFixed32 r.buffer_) := by
    have hdrop : r.buffer_.drop 6 = t.toByte :: (payload ++ rest) := by
      rw [hbuf, fragmentHeader, List.append_assoc, List.drop_append, length_encodeFixed32,
        List.drop_of_length_le (by rw [length_encodeFixed32]; omega)]
      rfl
    have htake : (r.buffer_.drop 6).take (1 + payload.length) = t.toByte :: payload := by
      rw [hdrop, Nat.add_comm]
      exact congrArg (t.toByte :: ·) List.take_left
    rw [htake, value_fragment, hbuf, fragmentHeader, List.append_assoc, decodeFixed32_encodeFixed32, unmask_mask]
  have hsize : r.buffer_.length = kHeaderSize + payload.length + rest.length := by
    rw [hr, List.length_append, length_physicalRecord]
  have hnonzero : t.toNat ≠ RecordType.kZeroType.toNat := by
    cases t <;> first | exact absurd rfl ht | decide
  have hpayload : (r.buffer_.drop kHeaderSize).take payload.length = payload := by
    rw [hbuf, ← length_fragmentHeader t payload, List.drop_left, List.take_left]
  have hrest : r.buffer_.drop (kHeaderSize + payload.length) = rest := by
    rw [hr, ← length_physicalRecord t payload, List.drop_left]
  rw [Reader.parsePhysicalRecord]
  dsimp only
  rw [hlength, htype, if_neg (by omega), if_neg fun h => hnonzero h.1, if_neg fun h => h.2 hcrc, hpayload, hrest,
    if_neg (by rw [hoff]; exact Nat.not_lt_zero _)]

/-! ## Positions -/

/-- A reader that has parsed a file up to `pos`, in the block that ends at `bound`, without a drop. -/
structure Reader.InBlock (r : Reader) (F : Bytes) (pos bound : ℕ) : Prop where
  buffer : r.buffer_ = (F.take bound).drop pos
  file : r.file_ = F.drop bound
  eof : r.eof_ = decide (F.length < bound)
  initial : r.initial_offset_ = 0
  drops : r.drops = []

variable {r : Reader} {F : Bytes} {pos bound : ℕ}

theorem Reader.InBlock.length_buffer (h : r.InBlock F pos bound) : r.buffer_.length = min bound F.length - pos := by
  rw [h.buffer, List.length_drop, List.length_take]

theorem Reader.InBlock.read (h : r.InBlock F pos bound) {D : Bytes} {t : RecordType} {payload : Bytes}
    (hF : D ++ physicalRecord t payload <+: F) (hD : D.length = pos) (ht : t ≠ .kZeroType)
    (hlen : payload.length < 2 ^ 16) (hbound : pos + (kHeaderSize + payload.length) ≤ bound) :
    ∃ r' : Reader, r.ReadPhysicalRecord = (t.toNat, payload, r') ∧
      r'.InBlock F (pos + (kHeaderSize + payload.length)) bound := by
  obtain ⟨X, rfl⟩ := hF
  have hend : (D ++ physicalRecord t payload).length = pos + (kHeaderSize + payload.length) := by
    rw [List.length_append, length_physicalRecord, hD]
  have hrest : ((D ++ physicalRecord t payload ++ X).take bound).drop (pos + (kHeaderSize + payload.length)) =
      X.take (bound - (pos + (kHeaderSize + payload.length))) := by
    rw [List.take_append, hend, List.take_of_length_le (by rw [hend]; exact hbound), List.drop_left' hend]
  have hbuf : r.buffer_ = physicalRecord t payload ++ X.take (bound - (pos + (kHeaderSize + payload.length))) := by
    rw [h.buffer, List.take_append, hend, List.take_of_length_le (by rw [hend]; exact hbound), List.append_assoc,
      List.drop_left' hD]
  refine ⟨{ r with buffer_ := X.take (bound - (pos + (kHeaderSize + payload.length))) }, ?_,
    ⟨hrest.symm, h.file, h.eof, h.initial, h.drops⟩⟩
  rw [Reader.ReadPhysicalRecord, if_neg, parsePhysicalRecord_of_append hbuf ht hlen h.initial]
  rw [hbuf, List.length_append, length_physicalRecord]
  omega

/-- In a file that was cut off within the fragment, the end of the file is found. -/
theorem Reader.InBlock.read_cut (h : r.InBlock F pos bound) {D G : Bytes} {t : RecordType} {payload : Bytes} {n : ℕ}
    (hF : F = G.take n) (hG : D ++ physicalRecord t payload <+: G) (hD : D.length = pos)
    (hlen : payload.length < 2 ^ 16) (hbound : pos + (kHeaderSize + payload.length) ≤ bound) (hpos : pos ≤ n)
    (hn : n < pos + (kHeaderSize + payload.length)) :
    ∃ r' : Reader, r.ReadPhysicalRecord = (kEof, [], r') ∧ r'.drops = [] := by
  refine ⟨{ r with buffer_ := [] }, ?_, h.drops⟩
  obtain ⟨X, rfl⟩ := hG
  have hend : (D ++ physicalRecord t payload).length = pos + (kHeaderSize + payload.length) := by
    rw [List.length_append, length_physicalRecord, hD]
  have hFcut : F = D ++ (physicalRecord t payload).take (n - pos) := by
    rw [hF, List.take_append_of_le_length (by omega), List.take_append, hD, List.take_of_length_le (by omega)]
  have hFlen : F.length = n := by
    rw [hFcut, List.length_append, List.length_take, length_physicalRecord, hD]
    omega
  have heof : r.eof_ = true := by
    rw [h.eof, decide_eq_true_eq]
    omega
  have hbuf : r.buffer_ = (physicalRecord t payload).take (n - pos) := by
    rw [h.buffer, List.take_of_length_le (by omega), hFcut, List.drop_left' hD]
  rw [Reader.ReadPhysicalRecord]
  by_cases hshort : r.buffer_.length < kHeaderSize
  · rw [if_pos hshort, if_pos heof]
  · have hbuflen : r.buffer_.length = n - pos := by
      rw [hbuf, List.length_take, length_physicalRecord]
      omega
    have hheader : r.buffer_ = fragmentHeader t payload ++ payload.take (n - pos - kHeaderSize) := by
      rw [hbuf, physicalRecord, List.take_append, length_fragmentHeader, List.take_of_length_le]
      rw [length_fragmentHeader]
      omega
    rw [if_neg hshort, Reader.parsePhysicalRecord]
    dsimp only
    rw [hheader, length_of_header hlen, ← hheader, if_pos (by omega), if_pos heof]

theorem Reader.InBlock.short (h : r.InBlock F pos bound) (hpos : bound < pos + kHeaderSize) :
    r.buffer_.length < kHeaderSize := by
  have hheader : kHeaderSize = 7 := rfl
  rw [h.length_buffer]
  omega

theorem Reader.InBlock.fill (h : r.InBlock F pos bound) (hpos : bound < pos + kHeaderSize) (hF : bound ≤ F.length) :
    r.ReadPhysicalRecord = r.fill.ReadPhysicalRecord ∧ r.fill.InBlock F bound (bound + kBlockSize) := by
  have hshort := h.short hpos
  have heof : ¬ r.eof_ = true := by
    rw [h.eof, decide_eq_true_eq]
    omega
  refine ⟨by conv_lhs => rw [Reader.ReadPhysicalRecord, if_pos hshort, if_neg heof], ?_, ?_, ?_, h.initial, h.drops⟩
  · change r.file_.take kBlockSize = _
    rw [h.file, List.drop_take, Nat.add_sub_cancel_left]
  · change r.file_.drop kBlockSize = _
    rw [h.file, List.drop_drop]
  · change decide ((r.file_.take kBlockSize).length < kBlockSize) = _
    rw [h.file, List.length_take, List.length_drop]
    congr 1
    refine propext ⟨fun hlt => ?_, fun hlt => ?_⟩ <;> omega

theorem Reader.InBlock.read_eof (h : r.InBlock F pos bound) (hshort : r.buffer_.length < kHeaderSize)
    (hF : F.length < bound) : ∃ r' : Reader, r.ReadPhysicalRecord = (kEof, [], r') ∧ r'.drops = [] := by
  have heof : r.eof_ = true := by
    rw [h.eof, decide_eq_true_eq]
    exact hF
  exact ⟨{ r with buffer_ := [] }, by rw [Reader.ReadPhysicalRecord, if_pos hshort, if_pos heof], h.drops⟩

/-! ## Fragments in blocks -/

/-- The end of the block that a position is in, or is the end of. -/
def blockEnd (pos : ℕ) : ℕ := (pos + (kBlockSize - 1)) / kBlockSize * kBlockSize

/-- The writer knows where it is in its block. -/
def Writer.Aligned (w : Writer) : Prop :=
  w.block_offset_ ≤ kBlockSize ∧ ∃ k, w.dest_.length = k * kBlockSize + w.block_offset_

theorem Writer.aligned_new : Writer.new.Aligned := ⟨Nat.zero_le _, 0, by rw [Nat.zero_mul]; rfl⟩

variable {w : Writer}

theorem blockEnd_eq {k o : ℕ} (ho : o ≤ kBlockSize) :
    blockEnd (k * kBlockSize + o) = if o = 0 then k * kBlockSize else (k + 1) * kBlockSize := by
  have hblock : kBlockSize = 32768 := rfl
  rw [hblock] at ho
  rw [blockEnd, hblock]
  split_ifs <;> omega

theorem le_blockEnd (pos : ℕ) : pos ≤ blockEnd pos := by
  have hblock : kBlockSize = 32768 := rfl
  rw [blockEnd, hblock]
  omega

/-- Where the next fragment begins: in the block of the writer, or at its end. -/
theorem Writer.Aligned.switchBlock (h : w.Aligned) :
    w.switchBlock.Aligned ∧ w.switchBlock.block_offset_ + kHeaderSize ≤ kBlockSize ∧
      w.dest_ <+: w.switchBlock.dest_ ∧
      (w.switchBlock = w ∧ 0 < w.block_offset_ ∨
        w.switchBlock.block_offset_ = 0 ∧ w.switchBlock.dest_.length = blockEnd w.dest_.length ∧
          w.switchBlock.dest_.length < w.dest_.length + kHeaderSize) := by
  have hblock : kBlockSize = 32768 := rfl
  have hheader : kHeaderSize = 7 := rfl
  obtain ⟨hle, k, hk⟩ := h
  unfold Writer.switchBlock
  dsimp only
  split_ifs with hl
  · have hlen : (w.dest_ ++ List.replicate (kBlockSize - w.block_offset_) 0).length = (k + 1) * kBlockSize := by
      rw [List.length_append, List.length_replicate, hk, Nat.add_mul, Nat.one_mul]
      omega
    have hend : blockEnd w.dest_.length = (k + 1) * kBlockSize := by
      rw [hk, blockEnd_eq hle, if_neg (by omega)]
    have hnear : (k + 1) * kBlockSize < w.dest_.length + kHeaderSize := by
      rw [hk, Nat.add_mul, Nat.one_mul]
      omega
    exact ⟨⟨Nat.zero_le _, k + 1, hlen.trans (Nat.add_zero _).symm⟩, (by decide : 0 + kHeaderSize ≤ kBlockSize),
      List.prefix_append _ _, Or.inr ⟨rfl, hlen.trans hend.symm, lt_of_eq_of_lt hlen hnear⟩⟩
  · refine ⟨⟨hle, k, hk⟩, by omega, List.prefix_refl _, ?_⟩
    by_cases hzero : w.block_offset_ = 0
    · refine Or.inr ⟨hzero, ?_, by omega⟩
      rw [hk, blockEnd_eq hle, if_pos hzero, hzero, Nat.add_zero]
    · exact Or.inl ⟨rfl, Nat.pos_of_ne_zero hzero⟩

theorem Writer.Aligned.emit (h : w.Aligned) {t : RecordType} {payload : Bytes}
    (hfits : w.block_offset_ + kHeaderSize + payload.length ≤ kBlockSize) :
    (w.EmitPhysicalRecord t payload).Aligned := by
  obtain ⟨-, k, hk⟩ := h
  refine ⟨by rw [Writer.EmitPhysicalRecord, ← Nat.add_assoc]; exact hfits, k, ?_⟩
  rw [Writer.EmitPhysicalRecord]
  dsimp only
  rw [List.length_append, length_physicalRecord, hk, Nat.add_assoc]

/-- **The fragment that was written at a position** is read there, or the end of a file that was cut off
before its end is found. -/
theorem readPhysicalRecord_at (hw : w.Aligned) {G : Bytes} {n : ℕ} (hn : w.dest_.length ≤ n)
    (hr : r.InBlock (G.take n) w.dest_.length (blockEnd w.dest_.length)) {t : RecordType} (ht : t ≠ .kZeroType)
    {payload : Bytes} (hfits : payload.length ≤ w.switchBlock.avail) {w' : Writer}
    (hw' : w' = w.switchBlock.EmitPhysicalRecord t payload) (hG : w'.dest_ <+: G) :
    (w'.dest_.length ≤ n → ∃ r' : Reader, r.ReadPhysicalRecord = (t.toNat, payload, r') ∧
      r'.InBlock (G.take n) w'.dest_.length (blockEnd w'.dest_.length)) ∧
    (n < w'.dest_.length → ∃ r' : Reader, r.ReadPhysicalRecord = (kEof, [], r') ∧ r'.drops = []) := by
  have hblock : kBlockSize = 32768 := rfl
  have hheader : kHeaderSize = 7 := rfl
  obtain ⟨hs, hroom, hpre, hcase⟩ := hw.switchBlock
  rw [Writer.avail] at hfits
  have hsmall : payload.length < 2 ^ 16 := by omega
  have hdest : w'.dest_ = w.switchBlock.dest_ ++ physicalRecord t payload := by rw [hw', Writer.EmitPhysicalRecord]
  have hlen : w'.dest_.length = w.switchBlock.dest_.length + (kHeaderSize + payload.length) := by
    rw [hdest, List.length_append, length_physicalRecord]
  rw [hdest] at hG
  -- the end of the block that the fragment is in
  obtain ⟨bound, hbound, hend⟩ : ∃ bound, w.switchBlock.dest_.length + (kHeaderSize + payload.length) ≤ bound ∧
      (blockEnd w'.dest_.length = bound ∧
        bound = w.switchBlock.dest_.length - w.switchBlock.block_offset_ + kBlockSize) := by
    obtain ⟨hle, k, hk⟩ := hs
    refine ⟨(k + 1) * kBlockSize, ?_, ?_, ?_⟩
    · rw [hk, Nat.add_mul, Nat.one_mul]
      omega
    · have hoff :
          w'.dest_.length = k * kBlockSize + (w.switchBlock.block_offset_ + (kHeaderSize + payload.length)) := by
        rw [hlen, hk, Nat.add_assoc]
      rw [hoff, blockEnd_eq (by omega), if_neg (by omega)]
    · rw [hk, Nat.add_mul, Nat.one_mul]
      omega
  -- a reader in that block reads the fragment, or finds the end of the file
  have hread : ∀ r : Reader, w.switchBlock.dest_.length ≤ n → r.InBlock (G.take n) w.switchBlock.dest_.length bound →
      (w'.dest_.length ≤ n → ∃ r' : Reader, r.ReadPhysicalRecord = (t.toNat, payload, r') ∧
        r'.InBlock (G.take n) w'.dest_.length (blockEnd w'.dest_.length)) ∧
      (n < w'.dest_.length → ∃ r' : Reader, r.ReadPhysicalRecord = (kEof, [], r') ∧ r'.drops = []) := by
    intro r hle hin
    refine ⟨fun hfull => ?_, fun hcut => hin.read_cut rfl hG rfl hsmall hbound hle (hlen ▸ hcut)⟩
    have htake : w.switchBlock.dest_ ++ physicalRecord t payload <+: G.take n :=
      List.prefix_take_iff.mpr ⟨hG, hdest ▸ hfull⟩
    obtain ⟨r', hr', hin'⟩ := hin.read htake rfl ht hsmall hbound
    exact ⟨r', hr', by rwa [hend.1, hlen]⟩
  rcases hcase with ⟨hsame, hpos⟩ | ⟨hzero, hblockEnd, hnear⟩
  · obtain ⟨hle, k, hk⟩ := hw
    have hsameEnd : blockEnd w.dest_.length = bound := by
      rw [hend.2, hsame, hk, blockEnd_eq hle, if_neg (by omega), Nat.add_mul, Nat.one_mul]
      omega
    rw [hsame, ← hsameEnd] at hread
    exact hread r hn hr
  · have hGlen : w.switchBlock.dest_.length ≤ G.length :=
      le_trans (by rw [List.length_append]; omega) hG.length_le
    rw [← hblockEnd] at hr
    rcases Nat.lt_or_ge n w.switchBlock.dest_.length with hlt | hle
    · have hF : (G.take n).length < w.switchBlock.dest_.length := by
        rw [List.length_take]
        omega
      exact ⟨fun hfull => by omega, fun _ => hr.read_eof (hr.short hnear) hF⟩
    · have hF : w.switchBlock.dest_.length ≤ (G.take n).length := by
        rw [List.length_take]
        omega
      obtain ⟨hfill, hin⟩ := hr.fill hnear hF
      have hnext : w.switchBlock.dest_.length + kBlockSize = bound := by
        rw [hend.2, hzero, Nat.sub_zero]
      rw [hfill]
      exact hread r.fill hle (hnext ▸ hin)

/-! ## Records -/

theorem fragmentType_ne (b e : Bool) : fragmentType b e ≠ .kZeroType := by
  cases b <;> cases e <;> decide

theorem Writer.addFragment_eq (w : Writer) (begin : Bool) (ptr : Bytes) :
    ∃ payload, payload.length ≤ w.switchBlock.avail ∧ payload ++ (w.addFragment begin ptr).2 = ptr ∧
      (w.addFragment begin ptr).1 =
        w.switchBlock.EmitPhysicalRecord (fragmentType begin (decide ((w.addFragment begin ptr).2 = [])))
          payload := by
  have hlen : w.switchBlock.fragmentLength ptr.length ≤ w.switchBlock.avail ∧
      w.switchBlock.fragmentLength ptr.length ≤ ptr.length := by
    rw [Writer.fragmentLength]
    split_ifs <;> omega
  have hlast : decide (ptr.length = w.switchBlock.fragmentLength ptr.length) =
      decide (ptr.drop (w.switchBlock.fragmentLength ptr.length) = []) := by
    rw [decide_eq_decide, List.drop_eq_nil_iff]
    exact ⟨fun h => h.le, fun h => le_antisymm h hlen.2⟩
  refine ⟨_, (List.length_take_le _ _).trans hlen.1, List.take_append_drop _ ptr, ?_⟩
  have hleft : (w.addFragment begin ptr).2 = ptr.drop (w.switchBlock.fragmentLength ptr.length) := rfl
  rw [hleft, ← hlast]
  rfl

theorem Writer.Aligned.addFragment (h : w.Aligned) (begin : Bool) (ptr : Bytes) :
    (w.addFragment begin ptr).1.Aligned := by
  obtain ⟨payload, hfits, -, heq⟩ := w.addFragment_eq begin ptr
  obtain ⟨hs, hroom, -⟩ := h.switchBlock
  rw [Writer.avail] at hfits
  rw [heq]
  exact hs.emit (by omega)

theorem Writer.prefix_addFragment (w : Writer) (begin : Bool) (ptr : Bytes) :
    w.dest_ <+: (w.addFragment begin ptr).1.dest_ := by
  have hswitch : w.dest_ <+: w.switchBlock.dest_ := by
    unfold Writer.switchBlock
    dsimp only
    split_ifs
    · exact List.prefix_append _ _
    · exact List.prefix_refl _
  exact hswitch.trans (List.prefix_append _ _)

theorem Writer.Aligned.addFragments (h : w.Aligned) (begin : Bool) (ptr : Bytes) :
    (w.addFragments begin ptr).Aligned ∧ w.dest_ <+: (w.addFragments begin ptr).dest_ := by
  induction w, begin, ptr using Writer.addFragments.induct with
  | case1 w begin ptr hlast =>
    rw [Writer.addFragments, if_pos hlast]
    exact ⟨h.addFragment begin ptr, w.prefix_addFragment begin ptr⟩
  | case2 w begin ptr hmore ih =>
    obtain ⟨haligned, hpre⟩ := ih (h.addFragment begin ptr)
    rw [Writer.addFragments, if_neg hmore]
    exact ⟨haligned, (w.prefix_addFragment begin ptr).trans hpre⟩

theorem onFragment_fragmentType (r : Reader) (begin last : Bool) (payload : Bytes) {scratch : Bytes}
    (hscratch : begin = true → scratch = []) (offset offset' : ℕ) :
    r.onFragment (fragmentType begin last).toNat payload scratch (!begin) offset offset' =
      if last then
        .returns (some (scratch ++ payload)) { r with last_record_offset_ := if begin then offset else offset' }
      else .continues r (scratch ++ payload) true (if begin then offset else offset') := by
  cases begin with
  | true =>
    rw [hscratch rfl]
    cases last <;> rfl
  | false => cases last <;> rfl

/-- **The record that was written at a position** is read there, or none when the file was cut off before
its end. -/
theorem readFragments_addFragments (hw : w.Aligned) {G : Bytes} {n : ℕ} (hn : w.dest_.length ≤ n)
    (hr : r.InBlock (G.take n) w.dest_.length (blockEnd w.dest_.length)) (begin : Bool) (ptr scratch : Bytes)
    (hscratch : begin = true → scratch = []) (offset : ℕ) (hG : (w.addFragments begin ptr).dest_ <+: G) :
    ((w.addFragments begin ptr).dest_.length ≤ n → ∃ r' : Reader,
      r.readFragments scratch (!begin) offset = (some (scratch ++ ptr), r') ∧
      r'.InBlock (G.take n) (w.addFragments begin ptr).dest_.length
        (blockEnd (w.addFragments begin ptr).dest_.length)) ∧
    (n < (w.addFragments begin ptr).dest_.length → ∃ r' : Reader,
      r.readFragments scratch (!begin) offset = (none, r') ∧ r'.drops = []) := by
  induction w, begin, ptr using Writer.addFragments.induct generalizing r scratch offset with
  | case1 w begin ptr hlast =>
    obtain ⟨payload, hfits, hptr, heq⟩ := w.addFragment_eq begin ptr
    rw [hlast, List.append_nil] at hptr
    rw [Writer.addFragments, if_pos hlast] at hG ⊢
    obtain ⟨hread, hcut⟩ := readPhysicalRecord_at hw hn hr (fragmentType_ne _ _) hfits heq hG
    refine ⟨fun hle => ?_, fun hlt => ?_⟩
    · obtain ⟨r', hr', hin⟩ := hread hle
      have hpass : r.pass scratch (!begin) offset = .returns (some (scratch ++ ptr))
          { r' with last_record_offset_ :=
            if begin then r.end_of_buffer_offset_ - r.buffer_.length else offset } := by
        rw [Reader.pass, hr', decide_eq_true hlast, hptr]
        exact onFragment_fragmentType r' begin true _ hscratch _ _
      exact ⟨_, Reader.readFragments_returns hpass, hin.buffer, hin.file, hin.eof, hin.initial, hin.drops⟩
    · obtain ⟨r', hr', hdrops⟩ := hcut hlt
      refine ⟨r', Reader.readFragments_returns ?_, hdrops⟩
      rw [Reader.pass, hr']
      rfl
  | case2 w begin ptr hmore ih =>
    obtain ⟨payload, hfits, hptr, heq⟩ := w.addFragment_eq begin ptr
    rw [Writer.addFragments, if_neg hmore] at hG ⊢
    have haligned := hw.addFragment begin ptr
    have hpre := (haligned.addFragments false (w.addFragment begin ptr).2).2
    obtain ⟨hread, hcut⟩ := readPhysicalRecord_at hw hn hr (fragmentType_ne _ _) hfits heq (hpre.trans hG)
    rcases Nat.lt_or_ge n (w.addFragment begin ptr).1.dest_.length with hlt | hle
    · -- the file was cut off within this fragment
      obtain ⟨r', hr', hdrops⟩ := hcut hlt
      refine ⟨fun hfull => absurd (hpre.length_le.trans hfull) (not_le.mpr hlt),
        fun _ => ⟨r', Reader.readFragments_returns ?_, hdrops⟩⟩
      rw [Reader.pass, hr']
      rfl
    · obtain ⟨r', hr', hin⟩ := hread hle
      have hpass : r.pass scratch (!begin) offset = .continues r' (scratch ++ payload) true
          (if begin then r.end_of_buffer_offset_ - r.buffer_.length else offset) := by
        rw [Reader.pass, hr', decide_eq_false hmore]
        exact onFragment_fragmentType r' begin false _ hscratch _ _
      have hwhole : scratch ++ ptr = scratch ++ payload ++ (w.addFragment begin ptr).2 := by
        rw [List.append_assoc, hptr]
      rw [Reader.readFragments_continues hpass, hwhole]
      exact ih haligned hle hin (scratch ++ payload) (fun h => absurd h Bool.false_ne_true) _ hG

/-! ## Logs -/

/-- The records whose bytes are all among the first `n` of the file. -/
def Writer.whole (w : Writer) (n : ℕ) : List Bytes → List Bytes
  | [] => []
  | slice :: l =>
    if (w.AddRecord slice).dest_.length ≤ n then slice :: (w.AddRecord slice).whole n l else []

theorem Writer.Aligned.addRecord (h : w.Aligned) (slice : Bytes) :
    (w.AddRecord slice).Aligned ∧ w.dest_ <+: (w.AddRecord slice).dest_ := h.addFragments true slice

theorem Writer.Aligned.prefix_addRecords (h : w.Aligned) (l : List Bytes) : w.dest_ <+: (w.addRecords l).dest_ := by
  induction l generalizing w with
  | nil => exact List.prefix_refl _
  | cons slice l ih =>
    obtain ⟨haligned, hpre⟩ := h.addRecord slice
    exact hpre.trans (ih haligned)

theorem Reader.InBlock.read_end (hr : r.InBlock F pos bound) (hpos : F.length = pos) (hbound : pos ≤ bound) :
    ∃ r' : Reader, r.ReadPhysicalRecord = (kEof, [], r') ∧ r'.drops = [] := by
  have hheader : kHeaderSize = 7 := rfl
  have hblock : kBlockSize = 32768 := rfl
  have hshort : r.buffer_.length < kHeaderSize := by
    rw [hr.length_buffer]
    omega
  rcases Nat.lt_or_ge F.length bound with hlt | hle
  · exact hr.read_eof hshort hlt
  · obtain ⟨hfill, hin⟩ := hr.fill (by omega) hle
    rw [hfill]
    exact hin.read_eof (hin.length_buffer ▸ by omega) (by omega)

theorem Reader.InBlock.readRecord_eq (hr : r.InBlock F pos bound) : r.ReadRecord = r.readFragments [] false 0 := by
  rw [Reader.ReadRecord, hr.initial, if_neg (Nat.not_lt_zero _)]

theorem records_at (hw : w.Aligned) {l : List Bytes} {n : ℕ} (hn : w.dest_.length ≤ n)
    (hr : r.InBlock ((w.addRecords l).dest_.take n) w.dest_.length (blockEnd w.dest_.length)) :
    r.records.1 = w.whole n l ∧ r.records.2.drops = [] := by
  induction l generalizing r w with
  | nil =>
    have hlen : (((w.addRecords []).dest_).take n).length = w.dest_.length := by
      rw [List.length_take]
      exact min_eq_right hn
    obtain ⟨r', hr', hdrops⟩ := hr.read_end hlen (le_blockEnd _)
    have hpass : r.pass [] false 0 = .returns none r' := by
      rw [Reader.pass, hr']
      rfl
    rw [Reader.records_none (hr.readRecord_eq.trans (Reader.readFragments_returns hpass))]
    exact ⟨rfl, hdrops⟩
  | cons slice l ih =>
    obtain ⟨haligned, -⟩ := hw.addRecord slice
    obtain ⟨hread, hcut⟩ := readFragments_addFragments hw hn hr true slice [] (fun _ => rfl) 0
      (haligned.prefix_addRecords l)
    rw [Writer.whole]
    split_ifs with hle
    · obtain ⟨r', hr', hin⟩ := hread hle
      obtain ⟨hrecords, hdrops⟩ := ih haligned hle hin
      rw [Reader.records_some (hr.readRecord_eq.trans hr'), hrecords]
      exact ⟨rfl, hdrops⟩
    · obtain ⟨r', hr', hdrops⟩ := hcut (not_le.mp hle)
      rw [Reader.records_none (hr.readRecord_eq.trans hr')]
      exact ⟨rfl, hdrops⟩

theorem Reader.inBlock_new (F : Bytes) (checksum : Bool) : (Reader.new F checksum 0).InBlock F 0 (blockEnd 0) := by
  have hzero : blockEnd 0 = 0 := by decide
  rw [hzero]
  exact ⟨rfl, rfl, (decide_eq_false (Nat.not_lt_zero _)).symm, rfl, rfl⟩

/-- **Of a log that was cut off anywhere**, exactly the records that were wholly written are read back, and
no drop is reported. -/
theorem records_cut (l : List Bytes) (n : ℕ) (checksum : Bool) :
    (Reader.new ((Writer.new.addRecords l).dest_.take n) checksum 0).records.1 = Writer.new.whole n l ∧
      (Reader.new ((Writer.new.addRecords l).dest_.take n) checksum 0).records.2.drops = [] :=
  records_at Writer.aligned_new (Nat.zero_le n) (Reader.inBlock_new _ checksum)

end Inery.Leveldb
