import IneryPersistence.Leveldb.Block
import IneryPersistence.Leveldb.MemTable
import IneryPersistence.Lib.Runs

/-!
# An iterator of a block as a cursor

* `Chunk`, `Shares`, `Layout`: the entries of a block and its restart points;
* `BlockIter.Reads`, `BlockIter.Ready`, `BlockIter.At`: an iterator of this block, before an entry or on it;
* `BlockIter.Ready.parse_cons`: the next entry is parsed;
* `CursorOp`, `Cursor.step`, `BlockIter.Stands`: the moves of a cursor on the entries, and where the iterator stands;
* `BlockBuilder.Holds`: what has been added, kept by `Add`;
* **`block_cursor`**: the iterator of a block that was built moves like a cursor on the entries.
-/

namespace Inery.Leveldb

open KV

/-! ## Layout -/

/-- How many bytes an entry shares with the key before it, its key and its value. -/
abbrev Chunk := ℕ × Bytes × Bytes

def chunksBytes (cs : List Chunk) : Bytes := cs.flatMap fun c => chunkBytes c.1 c.2.1 c.2.2

theorem chunksBytes_append (cs cs' : List Chunk) : chunksBytes (cs ++ cs') = chunksBytes cs ++ chunksBytes cs' :=
  List.flatMap_append

theorem chunksBytes_cons (c : Chunk) (cs : List Chunk) :
    chunksBytes (c :: cs) = chunkBytes c.1 c.2.1 c.2.2 ++ chunksBytes cs := rfl

/-- Every entry begins like the key before it. -/
def Shares : Bytes → List Chunk → Prop
  | _, [] => True
  | last, c :: cs =>
    c.1 ≤ last.length ∧ c.1 ≤ c.2.1.length ∧ last.take c.1 = c.2.1.take c.1 ∧ Shares c.2.1 cs

theorem Shares.of_append {last : Bytes} {before after : List Chunk} {c : Chunk}
    (h : Shares last (before ++ c :: after)) :
    c.1 ≤ c.2.1.length ∧ Shares c.2.1 after ∧ (c.1 = 0 → Shares [] (c :: after)) := by
  induction before generalizing last with
  | nil =>
    obtain ⟨-, hle, -, hrest⟩ := h
    exact ⟨hle, hrest, fun hzero => ⟨hzero.le, hle, by rw [hzero, List.take_zero, List.take_zero], hrest⟩⟩
  | cons d before ih => exact ih h.2.2.2

theorem chunkBytes_eq_append_value (s : ℕ) (key value : Bytes) :
    ∃ head : Bytes, chunkBytes s key value = head ++ value ∧
      head.length + value.length = (chunkBytes s key value).length ∧ key.length - s ≤ head.length := by
  refine ⟨EncodeVarint32 (UInt32.ofNat s) ++ (EncodeVarint32 (UInt32.ofNat (key.length - s)) ++
    (EncodeVarint32 (UInt32.ofNat value.length) ++ key.drop s)), ?_, ?_, ?_⟩
  · simp only [chunkBytes, List.append_assoc]
  · simp only [chunkBytes, List.length_append]
    omega
  · simp only [List.length_append, List.length_drop]
    omega

theorem length_drop_le_chunkBytes (s : ℕ) (key value : Bytes) :
    key.length - s + value.length ≤ (chunkBytes s key value).length := by
  rw [chunkBytes]
  simp only [List.length_append, List.length_drop]
  omega

theorem Shares.length_key_le {last : Bytes} {before after : List Chunk} {c : Chunk}
    (h : Shares last (before ++ c :: after)) :
    c.2.1.length ≤ last.length + (chunksBytes (before ++ [c])).length := by
  induction before generalizing last with
  | nil =>
    obtain ⟨hlast, -⟩ := h
    have hparts := length_drop_le_chunkBytes c.1 c.2.1 c.2.2
    rw [List.nil_append, chunksBytes_cons, List.length_append]
    omega
  | cons d before ih =>
    obtain ⟨hlast, -, -, hrest⟩ := h
    have hkey := ih hrest
    have hparts := length_drop_le_chunkBytes d.1 d.2.1 d.2.2
    rw [List.cons_append, chunksBytes_cons, List.length_append]
    omega

/-- The entries and the restart points of a block. -/
structure Layout (cs : List Chunk) (points : List ℕ) : Prop where
  shares : Shares [] cs
  first : points.head? = some 0
  restart : ∀ i p, points[i]? = some p → cs = [] ∧ i = 0 ∧ p = 0 ∨
    ∃ before c after, cs = before ++ c :: after ∧ c.1 = 0 ∧ p = (chunksBytes before).length

theorem one_le_length_encodeVarint32 (v : UInt32) : 1 ≤ (EncodeVarint32 v).length := by
  rw [EncodeVarint32]
  split_ifs <;> simp

theorem length_chunkBytes_pos (s : ℕ) (key value : Bytes) : 3 ≤ (chunkBytes s key value).length := by
  have hs := one_le_length_encodeVarint32 (UInt32.ofNat s)
  have hn := one_le_length_encodeVarint32 (UInt32.ofNat (key.length - s))
  have hv := one_le_length_encodeVarint32 (UInt32.ofNat value.length)
  rw [chunkBytes, List.length_append, List.length_append, List.length_append]
  omega

/-! ## Entries -/

/-- A number below 128 is its only byte, and no other number begins with such a byte. -/
theorem encodeVarint32_small {v : UInt32} (h : v.toNat < 128) : EncodeVarint32 v = [Fin.ofNat 256 v.toNat] := by
  have h7 : v.toNat < 2 ^ 7 := h
  rw [EncodeVarint32, if_pos h7]

theorem head_encodeVarint32 (v : UInt32) (rest : Bytes) :
    ((EncodeVarint32 v ++ rest).getD 0 0).val < 128 ↔ v.toNat < 128 := by
  by_cases h : v.toNat < 128
  · rw [encodeVarint32_small h]
    refine iff_of_true ?_ h
    change v.toNat % 256 < 128
    omega
  · refine iff_of_false ?_ h
    have hmore : 128 ≤ (moreByte v).val := by
      rw [moreByte_val]
      omega
    have h7 : ¬ v.toNat < 2 ^ 7 := h
    rw [EncodeVarint32, if_neg h7]
    split_ifs <;> exact not_lt.mpr hmore

theorem or_lt_128 (a b c : ℕ) : a ||| b ||| c < 128 ↔ a < 128 ∧ b < 128 ∧ c < 128 := by
  have h : ∀ x y : ℕ, x ||| y < 128 ↔ x < 128 ∧ y < 128 := fun x y =>
    ⟨fun hlt => ⟨lt_of_le_of_lt Nat.left_le_or hlt, lt_of_le_of_lt Nat.right_le_or hlt⟩,
      fun hlt => @Nat.or_lt_two_pow x y 7 hlt.1 hlt.2⟩
  rw [← and_assoc, ← h a b]
  exact h (a ||| b) c

theorem decodeEntry_varints (s n v : UInt32) (rest : Bytes) (hfits : ¬ UInt32.ofNat rest.length < n + v) :
    DecodeEntry (EncodeVarint32 s ++ (EncodeVarint32 n ++ (EncodeVarint32 v ++ rest))) = some ((s, n, v), rest) := by
  have hs := one_le_length_encodeVarint32 s
  have hn := one_le_length_encodeVarint32 n
  have hv := one_le_length_encodeVarint32 v
  have hlong : ¬ (EncodeVarint32 s ++ (EncodeVarint32 n ++ (EncodeVarint32 v ++ rest))).length < 3 := by
    rw [List.length_append, List.length_append, List.length_append]
    omega
  rw [DecodeEntry, if_neg hlong]
  dsimp only
  by_cases hfast : ((EncodeVarint32 s ++ (EncodeVarint32 n ++ (EncodeVarint32 v ++ rest))).getD 0 0).val |||
      ((EncodeVarint32 s ++ (EncodeVarint32 n ++ (EncodeVarint32 v ++ rest))).getD 1 0).val |||
      ((EncodeVarint32 s ++ (EncodeVarint32 n ++ (EncodeVarint32 v ++ rest))).getD 2 0).val < 128
  · -- each length is one byte
    obtain ⟨h0, h1, h2⟩ := (or_lt_128 _ _ _).mp hfast
    have hs' := (head_encodeVarint32 s _).mp h0
    rw [encodeVarint32_small hs'] at h1 h2
    have hn' := (head_encodeVarint32 n _).mp h1
    rw [encodeVarint32_small hn'] at h2
    have hv' := (head_encodeVarint32 v rest).mp h2
    have hbyte : ∀ x : UInt32, x.toNat < 128 → UInt32.ofNat (Fin.ofNat 256 x.toNat : Byte).val = x := fun x hx => by
      have hval : (Fin.ofNat 256 x.toNat : Byte).val = x.toNat := Nat.mod_eq_of_lt (by omega)
      rw [hval, UInt32.ofNat_toNat]
    rw [if_pos hfast, encodeVarint32_small hs', encodeVarint32_small hn', encodeVarint32_small hv', Option.bind_some]
    change (if UInt32.ofNat rest.length < UInt32.ofNat (Fin.ofNat 256 n.toNat : Byte).val +
        UInt32.ofNat (Fin.ofNat 256 v.toNat : Byte).val then none else
      some ((UInt32.ofNat (Fin.ofNat 256 s.toNat : Byte).val, UInt32.ofNat (Fin.ofNat 256 n.toNat : Byte).val,
        UInt32.ofNat (Fin.ofNat 256 v.toNat : Byte).val), rest)) = _
    rw [hbyte s hs', hbyte n hn', hbyte v hv', if_neg hfits]
  · rw [if_neg hfast, getVarint32Ptr_encodeVarint32, Option.bind_some, getVarint32Ptr_encodeVarint32,
      Option.bind_some, getVarint32Ptr_encodeVarint32, Option.map_some, Option.bind_some, if_neg hfits]

theorem decodeEntry_chunkBytes {s : ℕ} {key value rest : Bytes}
    (hsize : (chunkBytes s key value ++ rest).length < 2 ^ 32) :
    DecodeEntry (chunkBytes s key value ++ rest) =
      some ((UInt32.ofNat s, UInt32.ofNat (key.length - s), UInt32.ofNat value.length), key.drop s ++
        (value ++ rest)) := by
  have hbytes : chunkBytes s key value ++ rest = EncodeVarint32 (UInt32.ofNat s) ++
      (EncodeVarint32 (UInt32.ofNat (key.length - s)) ++ (EncodeVarint32 (UInt32.ofNat value.length) ++
        (key.drop s ++ (value ++ rest)))) := by
    simp only [chunkBytes, List.append_assoc]
  rw [hbytes, List.length_append, List.length_append, List.length_append, List.length_append, List.length_append,
    List.length_drop] at hsize
  rw [hbytes]
  refine decodeEntry_varints _ _ _ _ ?_
  rw [UInt32.lt_iff_toNat_lt, UInt32.toNat_add, UInt32.toNat_ofNat', UInt32.toNat_ofNat', UInt32.toNat_ofNat',
    List.length_append, List.length_append, List.length_drop]
  omega

/-! ## Positions -/

/-- The iterator is one of the block. -/
structure BlockIter.Reads (it : BlockIter) (cs : List Chunk) (points : List ℕ) : Prop where
  data : ∃ rest, it.data_ = chunksBytes cs ++ ((points.flatMap fun r => EncodeFixed32 (UInt32.ofNat r)) ++ rest)
  restarts : it.restarts_ = (chunksBytes cs).length
  num_restarts : it.num_restarts_ = points.length
  status : it.status_ = .OK
  size : (chunksBytes cs).length < 2 ^ 32

/-- The iterator stands before the entries `after`. -/
structure BlockIter.Ready (it : BlockIter) (cs : List Chunk) (before after : List Chunk) : Prop where
  split : cs = before ++ after
  offset : it.NextEntryOffset = (chunksBytes before).length
  shares : Shares it.key_ after
  index : it.restart_index_ < it.num_restarts_

/-- The iterator stands on the entry `c`. -/
structure BlockIter.At (it : BlockIter) (cs : List Chunk) (before : List Chunk) (c : Chunk) (after : List Chunk) :
    Prop where
  split : cs = before ++ c :: after
  current : it.current_ = (chunksBytes before).length
  offset : it.NextEntryOffset = (chunksBytes (before ++ [c])).length
  key : it.key_ = c.2.1
  value : it.value = c.2.2
  index : it.restart_index_ < it.num_restarts_

section Iterate

variable {cs before after : List Chunk} {points : List ℕ} {c : Chunk} {it : BlockIter}

theorem BlockIter.At.ready (h : it.At cs before c after) (hl : Layout cs points) :
    it.Ready cs (before ++ [c]) after := by
  have hshares := hl.shares
  rw [h.split] at hshares
  exact ⟨by rw [h.split, List.append_assoc, List.singleton_append], h.offset, h.key ▸ hshares.of_append.2.1, h.index⟩

theorem length_chunksBytes_lt (h : cs = before ++ c :: after) :
    (chunksBytes before).length < (chunksBytes cs).length := by
  have hpos := length_chunkBytes_pos c.1 c.2.1 c.2.2
  rw [h, chunksBytes_append, chunksBytes_cons, List.length_append, List.length_append]
  omega

theorem before_eq_of_length {before' after' : List Chunk} (h : before ++ after = before' ++ after')
    (hlen : (chunksBytes before).length = (chunksBytes before').length) : before = before' := by
  induction before generalizing before' with
  | nil =>
    cases before' with
    | nil => rfl
    | cons d before' =>
      have hpos := length_chunkBytes_pos d.1 d.2.1 d.2.2
      rw [chunksBytes_cons, List.length_append] at hlen
      simp only [chunksBytes, List.flatMap_nil, List.length_nil] at hlen
      omega
  | cons d before ih =>
    have hpos := length_chunkBytes_pos d.1 d.2.1 d.2.2
    cases before' with
    | nil =>
      rw [chunksBytes_cons, List.length_append] at hlen
      simp only [chunksBytes, List.flatMap_nil, List.length_nil] at hlen
      omega
    | cons d' before' =>
      obtain ⟨rfl, hrest⟩ := List.cons.inj h
      rw [chunksBytes_cons, chunksBytes_cons, List.length_append, List.length_append] at hlen
      rw [ih hrest (Nat.add_left_cancel hlen)]

theorem BlockIter.Reads.region (h : it.Reads cs points) (hsplit : cs = before ++ after) :
    it.region (chunksBytes before).length = chunksBytes after := by
  obtain ⟨rest, hdata⟩ := h.data
  rw [BlockIter.region, h.restarts, hdata, List.take_left, hsplit, chunksBytes_append, List.drop_left]

theorem BlockIter.advanceRestart_lt (it : BlockIter) (current index : ℕ) (h : index < it.num_restarts_) :
    it.advanceRestart current index < it.num_restarts_ := by
  induction index using BlockIter.advanceRestart.induct it current with
  | case1 index hmore ih =>
    rw [BlockIter.advanceRestart, if_pos hmore]
    exact ih hmore.1
  | case2 index hstop =>
    rw [BlockIter.advanceRestart, if_neg hstop]
    exact h

theorem BlockIter.Reads.decode (h : it.Reads cs points) (hl : Layout cs points)
    (hsplit : cs = before ++ c :: after) :
    ∃ shared non_shared value_length : UInt32, DecodeEntry (it.region (chunksBytes before).length) =
        some ((shared, non_shared, value_length), c.2.1.drop c.1 ++ (c.2.2 ++ chunksBytes after)) ∧
      shared.toNat = c.1 ∧ non_shared.toNat = (c.2.1.drop c.1).length ∧ value_length.toNat = c.2.2.length := by
  have hshares := hl.shares
  rw [hsplit] at hshares
  have hle := hshares.of_append.1
  have hkey := hshares.length_key_le
  have hsize := h.size
  have hassoc : cs = before ++ [c] ++ after := by rw [hsplit, List.append_assoc, List.singleton_append]
  have hparts := length_drop_le_chunkBytes c.1 c.2.1 c.2.2
  have hupto : (chunksBytes (before ++ [c])).length ≤ (chunksBytes cs).length := by
    rw [hassoc, chunksBytes_append (before ++ [c]), List.length_append]
    exact Nat.le_add_right _ _
  rw [List.length_nil, Nat.zero_add] at hkey
  rw [hsplit, chunksBytes_append, List.length_append, chunksBytes_cons] at hsize
  have hbytes : (chunkBytes c.1 c.2.1 c.2.2 ++ chunksBytes after).length < 2 ^ 32 := by omega
  have hdecode := decodeEntry_chunkBytes hbytes
  rw [List.length_append] at hbytes
  rw [← chunksBytes_cons, ← h.region hsplit] at hdecode
  have hlt : c.2.1.length < 2 ^ 32 := lt_of_le_of_lt (hkey.trans hupto) h.size
  refine ⟨_, _, _, hdecode, ?_, ?_, ?_⟩
  · rw [UInt32.toNat_ofNat']
    exact Nat.mod_eq_of_lt (lt_of_le_of_lt hle hlt)
  · rw [UInt32.toNat_ofNat', List.length_drop]
    exact Nat.mod_eq_of_lt (by omega)
  · rw [UInt32.toNat_ofNat']
    exact Nat.mod_eq_of_lt (by omega)

/-- **The next entry is parsed.** -/
theorem BlockIter.Ready.parse_cons (h : it.Ready cs before (c :: after)) (hr : it.Reads cs points)
    (hl : Layout cs points) :
    ∃ it', it.ParseNextKey = (true, it') ∧ it'.Reads cs points ∧ it'.At cs before c after := by
  obtain ⟨hle, hle', htake, -⟩ := h.shares
  have hregion := hr.region h.split
  have hlt := length_chunksBytes_lt h.split
  obtain ⟨shared, non_shared, value_length, hdecode, hshared, hnon_shared, hvalue_length⟩ := hr.decode hl h.split
  obtain ⟨head, hhead, hheadlen, hdrop⟩ := chunkBytes_eq_append_value c.1 c.2.1 c.2.2
  rw [BlockIter.ParseNextKey, if_neg (by rw [h.offset, hr.restarts]; omega), h.offset, hdecode]
  dsimp only
  rw [hshared, hnon_shared, hvalue_length, if_neg (not_lt.mpr hle), List.take_left, hregion]
  have hoffset : (chunksBytes before).length + ((chunksBytes (c :: after)).length -
      (c.2.1.drop c.1 ++ (c.2.2 ++ chunksBytes after)).length) + (c.2.1.drop c.1).length =
      (chunksBytes before ++ head).length := by
    rw [chunksBytes_cons]
    simp only [List.length_append, List.length_drop]
    omega
  refine ⟨_, rfl, ⟨hr.data, hr.restarts, hr.num_restarts, hr.status, hr.size⟩, h.split, rfl, ?_, ?_, ?_,
    it.advanceRestart_lt _ _ h.index⟩
  · rw [BlockIter.NextEntryOffset]
    dsimp only
    rw [hoffset, chunksBytes_append, chunksBytes_cons, List.length_append, List.length_append, List.length_append]
    change _ = _ + (_ + 0)
    omega
  · change it.key_.take c.1 ++ c.2.1.drop c.1 = c.2.1
    rw [htake, List.take_append_drop]
  · obtain ⟨rest, hdata⟩ := hr.data
    rw [BlockIter.value]
    dsimp only
    rw [hoffset, hdata, h.split, chunksBytes_append, chunksBytes_cons, hhead]
    simp only [List.append_assoc]
    rw [← List.append_assoc, List.drop_left, List.take_left]

theorem BlockIter.Ready.parse_nil (h : it.Ready cs before []) (hr : it.Reads cs points) :
    it.ParseNextKey = (false, { it with current_ := it.restarts_, restart_index_ := it.num_restarts_ }) := by
  have hsplit := h.split
  rw [List.append_nil] at hsplit
  rw [BlockIter.ParseNextKey, if_pos (by rw [h.offset, hr.restarts, hsplit])]

/-! ## Restart points -/

theorem BlockIter.Reads.getRestartPoint (h : it.Reads cs points) (hl : Layout cs points) {i p : ℕ}
    (hp : points[i]? = some p) : it.GetRestartPoint i = p := by
  obtain ⟨rest, hdata⟩ := h.data
  have hlt : p < 2 ^ 32 := by
    have hsize := h.size
    rcases hl.restart i p hp with ⟨-, -, rfl⟩ | ⟨before, c, after, hsplit, -, rfl⟩
    · decide
    · exact lt_trans (length_chunksBytes_lt hsplit) hsize
  rw [BlockIter.GetRestartPoint, h.restarts, hdata]
  exact decodeFixed32_fixed32s _ hp hlt rest

theorem BlockIter.Reads.seekToRestartPoint (h : it.Reads cs points) (hl : Layout cs points) {i p : ℕ}
    (hp : points[i]? = some p) :
    (it.SeekToRestartPoint i).Reads cs points ∧ ∃ before after, (it.SeekToRestartPoint i).Ready cs before after ∧
      p = (chunksBytes before).length ∧ (cs = [] ∨ ∃ c rest, after = c :: rest ∧ c.1 = 0) := by
  have hpoint := h.getRestartPoint hl hp
  have hindex : i < it.num_restarts_ := h.num_restarts ▸ (List.getElem?_eq_some_iff.mp hp).1
  refine ⟨⟨h.data, h.restarts, h.num_restarts, h.status, h.size⟩, ?_⟩
  rcases hl.restart i p hp with ⟨hnil, -, hzero⟩ | ⟨before, c, after, hsplit, hc, hlen⟩
  · refine ⟨[], [], ⟨hnil, ?_, trivial, hindex⟩, hzero, .inl hnil⟩
    rw [BlockIter.NextEntryOffset, BlockIter.SeekToRestartPoint]
    dsimp only
    rw [hpoint, hzero]
    rfl
  · have hshares := hl.shares
    rw [hsplit] at hshares
    refine ⟨before, c :: after, ⟨hsplit, ?_, hshares.of_append.2.2 hc, hindex⟩, hlen, .inr ⟨c, after, rfl, hc⟩⟩
    rw [BlockIter.NextEntryOffset, BlockIter.SeekToRestartPoint]
    dsimp only
    rw [hpoint, hlen, Nat.add_zero]

/-! ## Loops -/

theorem BlockIter.Ready.skipTo {mid : List Chunk} {d : Chunk} (h : it.Ready cs before (mid ++ d :: after))
    (hr : it.Reads cs points) (hl : Layout cs points) {original : ℕ}
    (horiginal : original = (chunksBytes (before ++ mid ++ [d])).length) :
    (it.skipTo original).Reads cs points ∧ (it.skipTo original).At cs (before ++ mid) d after := by
  induction mid generalizing it before with
  | nil =>
    obtain ⟨it', hparse, hreads, hat⟩ := h.parse_cons hr hl
    rw [List.append_nil] at horiginal ⊢
    have hstop : ¬ (it.ParseNextKey.1 = true ∧ it.ParseNextKey.2.NextEntryOffset < original) := by
      rw [hparse, horiginal, hat.offset]
      exact fun hlt => lt_irrefl _ hlt.2
    rw [BlockIter.skipTo, dif_neg hstop, hparse]
    exact ⟨hreads, hat⟩
  | cons e mid ih =>
    obtain ⟨it', hparse, hreads, hat⟩ := h.parse_cons hr hl
    have hassoc : before ++ e :: mid = before ++ [e] ++ mid := by rw [List.append_assoc, List.singleton_append]
    have hmore : it.ParseNextKey.1 = true ∧ it.ParseNextKey.2.NextEntryOffset < original := by
      have hpos := length_chunkBytes_pos d.1 d.2.1 d.2.2
      rw [hparse, horiginal, hat.offset, hassoc, List.append_assoc, chunksBytes_append (before ++ [e]),
        chunksBytes_append mid, List.length_append, List.length_append, chunksBytes_cons, List.length_append]
      exact ⟨rfl, by omega⟩
    rw [hassoc] at horiginal ⊢
    rw [BlockIter.skipTo, dif_pos hmore, hparse]
    exact ih (hat.ready hl) hreads horiginal

/-- The first loop of `Prev` finds a restart point before the offset, unless there is no entry before it. -/
theorem BlockIter.Reads.rewind (h : it.Reads cs points) (hl : Layout cs points) (original : ℕ) {index : ℕ}
    (hindex : index < it.num_restarts_) :
    (it.rewind original index = none ∧ original = 0) ∨
      ∃ i p, it.rewind original index = some i ∧ points[i]? = some p ∧ p < original := by
  rw [h.num_restarts] at hindex
  induction index with
  | zero =>
    have hzero : points[0]? = some 0 := by
      rw [← List.head?_eq_getElem?]
      exact hl.first
    rw [BlockIter.rewind, h.getRestartPoint hl hzero]
    split_ifs with hle
    · exact .inl ⟨rfl, Nat.le_zero.mp hle⟩
    · exact .inr ⟨0, 0, rfl, hzero, not_le.mp hle⟩
  | succ index ih =>
    have hget : points[index + 1]? = some points[index + 1] := List.getElem?_eq_getElem hindex
    rw [BlockIter.rewind, h.getRestartPoint hl hget]
    split_ifs with hle
    · exact ih (Nat.lt_of_succ_lt hindex)
    · exact .inr ⟨index + 1, _, rfl, hget, not_le.mp hle⟩

/-! ## Moves -/

/-- Where an iterator stands: on the entry with this number, or behind the last. -/
def BlockIter.Stands (it : BlockIter) (cs : List Chunk) (points : List ℕ) (pos : ℕ) : Prop :=
  it.Reads cs points ∧ ((∃ before c after, it.At cs before c after ∧ pos = before.length) ∨
    (it.current_ = it.restarts_ ∧ pos = cs.length))

theorem BlockIter.Ready.parse (h : it.Ready cs before after) (hr : it.Reads cs points) (hl : Layout cs points) :
    it.ParseNextKey.2.Stands cs points before.length := by
  cases after with
  | nil =>
    rw [h.parse_nil hr]
    refine ⟨⟨hr.data, hr.restarts, hr.num_restarts, hr.status, hr.size⟩, .inr ⟨rfl, ?_⟩⟩
    rw [h.split, List.append_nil]
  | cons c after =>
    obtain ⟨it', hparse, hreads, hat⟩ := h.parse_cons hr hl
    rw [hparse]
    exact ⟨hreads, .inl ⟨before, c, after, hat, rfl⟩⟩

theorem BlockIter.At.next (h : it.At cs before c after) (hr : it.Reads cs points) (hl : Layout cs points) :
    it.Next.Stands cs points (before.length + 1) := by
  have hparse := (h.ready hl).parse hr hl
  rwa [List.length_append] at hparse

theorem BlockIter.At.prev (h : it.At cs before c after) (hr : it.Reads cs points) (hl : Layout cs points) :
    it.Prev.Stands cs points (if before = [] then cs.length else before.length - 1) := by
  rcases hr.rewind hl it.current_ h.index with ⟨hnone, hzero⟩ | ⟨i, p, hsome, hp, hlt⟩
  · have hnil : before = [] := by
      cases before with
      | nil => rfl
      | cons d before =>
        have hpos := length_chunkBytes_pos d.1 d.2.1 d.2.2
        rw [h.current, chunksBytes_cons, List.length_append] at hzero
        omega
    rw [if_pos hnil, BlockIter.Prev, hnone]
    exact ⟨⟨hr.data, hr.restarts, hr.num_restarts, hr.status, hr.size⟩, .inr ⟨rfl, rfl⟩⟩
  · obtain ⟨hreads, first, rest, hready, hlen, -⟩ := hr.seekToRestartPoint hl hp
    rw [hlen, h.current] at hlt
    -- the restart point is before the entry
    obtain ⟨mid, hmid⟩ : ∃ mid, before = first ++ mid := by
      rcases List.append_eq_append_iff.mp (hready.split.symm.trans h.split) with ⟨mid, hmid, -⟩ | ⟨mid, hmid, -⟩
      · exact ⟨mid, hmid⟩
      · rw [hmid, chunksBytes_append, List.length_append] at hlt
        omega
    rcases List.eq_nil_or_concat mid with rfl | ⟨mid, d, rfl⟩
    · rw [hmid, List.append_nil] at hlt
      exact absurd hlt (lt_irrefl _)
    · have hne : before ≠ [] := by
        rw [hmid]
        simp
      have hrest : rest = mid ++ d :: (c :: after) := by
        have hcs := hready.split.symm.trans h.split
        rw [hmid, List.append_assoc] at hcs
        have hsame := List.append_cancel_left hcs
        rw [hsame]
        simp
      rw [hrest] at hready
      have hcurrent : it.current_ = (chunksBytes (first ++ mid ++ [d])).length := by
        rw [h.current, hmid, List.concat_eq_append, List.append_assoc]
      obtain ⟨hreads', hat⟩ := hready.skipTo hreads hl hcurrent
      rw [if_neg hne, BlockIter.Prev, hsome]
      refine ⟨hreads', .inl ⟨_, d, _, hat, ?_⟩⟩
      rw [hmid]
      simp

theorem Layout.getElem?_zero (hl : Layout cs points) : points[0]? = some 0 := by
  rw [← List.head?_eq_getElem?]
  exact hl.first

theorem BlockIter.Reads.seekToFirst (h : it.Reads cs points) (hl : Layout cs points) :
    it.SeekToFirst.Stands cs points 0 := by
  obtain ⟨hreads, before, after, hready, hlen, -⟩ := h.seekToRestartPoint hl hl.getElem?_zero
  have hnil : before = [] := by
    cases before with
    | nil => rfl
    | cons d before =>
      have hpos := length_chunkBytes_pos d.1 d.2.1 d.2.2
      rw [chunksBytes_cons, List.length_append] at hlen
      omega
  subst hnil
  exact hready.parse hreads hl

theorem BlockIter.Reads.seekToLast (h : it.Reads cs points) (hl : Layout cs points) :
    it.SeekToLast.Stands cs points (cs.length - 1) := by
  have hlen : 0 < points.length := List.length_pos_iff.mpr fun hnil => by
    have hfirst := hl.first
    rw [hnil] at hfirst
    cases hfirst
  have hlast : it.num_restarts_ - 1 < points.length := by
    rw [h.num_restarts]
    omega
  obtain ⟨hreads, before, after, hready, -, hafter⟩ :=
    h.seekToRestartPoint hl (List.getElem?_eq_getElem hlast)
  rcases hafter with hnil | ⟨c, rest, hafter, -⟩
  · have hsplit := hready.split
    rw [hnil] at hsplit
    obtain ⟨rfl, rfl⟩ := List.append_eq_nil_iff.mp hsplit.symm
    have hparse := hready.parse_nil hreads
    rw [BlockIter.SeekToLast, BlockIter.skipTo, hparse, dif_neg (by simp)]
    exact ⟨⟨h.data, h.restarts, h.num_restarts, h.status, h.size⟩, .inr ⟨rfl, by rw [hnil]; rfl⟩⟩
  · obtain ⟨mid, d, hmid⟩ := List.eq_nil_or_concat after |>.resolve_left (by rw [hafter]; simp)
    have hend : after = mid ++ d :: [] := by rw [hmid, List.concat_eq_append]
    rw [hend] at hready
    have hrestarts : it.restarts_ = (chunksBytes (before ++ mid ++ [d])).length := by
      rw [h.restarts, hready.split, List.append_assoc]
    obtain ⟨hreads', hat⟩ := hready.skipTo hreads hl hrestarts
    refine ⟨hreads', .inl ⟨_, d, _, hat, ?_⟩⟩
    rw [hready.split]
    simp

section Seek

variable {compare : Bytes → Bytes → Ordering} {target : Bytes}

/-- The keys ascend. -/
def Ascending (compare : Bytes → Bytes → Ordering) (cs : List Chunk) : Prop :=
  cs.Pairwise fun c d => compare c.2.1 d.2.1 = .lt

/-- The entries with smaller keys than the target. -/
def isBefore (compare : Bytes → Bytes → Ordering) (target : Bytes) (c : Chunk) : Bool := compare c.2.1 target = .lt

theorem BlockIter.Ready.scanFor (h : it.Ready cs before after) (hr : it.Reads cs points) (hl : Layout cs points) :
    (it.scanFor compare target).Stands cs points
      (before.length + (after.takeWhile (isBefore compare target)).length) := by
  induction after generalizing it before with
  | nil =>
    have hparse := h.parse_nil hr
    rw [BlockIter.scanFor, hparse, dif_neg (by simp)]
    refine ⟨⟨hr.data, hr.restarts, hr.num_restarts, hr.status, hr.size⟩, .inr ⟨rfl, ?_⟩⟩
    rw [h.split, List.append_nil]
    rfl
  | cons c after ih =>
    obtain ⟨it', hparse, hreads, hat⟩ := h.parse_cons hr hl
    rw [BlockIter.scanFor, hparse]
    dsimp only
    rw [hat.key]
    by_cases hlt : compare c.2.1 target = .lt
    · have hbefore : isBefore compare target c = true := decide_eq_true hlt
      have hrest := ih (hat.ready hl) hreads
      rw [List.length_append, Nat.add_assoc, Nat.add_comm [c].length] at hrest
      rw [dif_pos ⟨rfl, hlt⟩, List.takeWhile_cons_of_pos hbefore]
      exact hrest
    · have hnot : ¬ isBefore compare target c = true := fun htrue => hlt (of_decide_eq_true htrue)
      rw [dif_neg fun hand => hlt hand.2, List.takeWhile_cons_of_neg hnot]
      exact ⟨hreads, .inl ⟨before, c, after, hat, rfl⟩⟩

theorem BlockIter.Reads.decodeRestart (h : it.Reads cs points) (hl : Layout cs points) {i p : ℕ} (hi : 0 < i)
    (hp : points[i]? = some p) :
    ∃ before c after r, cs = before ++ c :: after ∧ p = (chunksBytes before).length ∧
      DecodeEntry (it.region (it.GetRestartPoint i)) = some r ∧ r.1.1.toNat = 0 ∧
      r.2.take r.1.2.1.toNat = c.2.1 := by
  rcases hl.restart i p hp with ⟨-, hzero, -⟩ | ⟨before, c, after, hsplit, hc, hlen⟩
  · exact absurd hzero hi.ne'
  · obtain ⟨shared, non_shared, value_length, hdecode, hshared, hnon_shared, -⟩ := h.decode hl hsplit
    rw [← hlen, ← h.getRestartPoint hl hp] at hdecode
    refine ⟨before, c, after, _, hsplit, hlen, hdecode, hshared.trans hc, ?_⟩
    dsimp only
    rw [hnon_shared, List.take_left, hc, List.drop_zero]

/-- The first restart point, or one whose key is smaller than the target. -/
def LowPoint (compare : Bytes → Bytes → Ordering) (target : Bytes) (cs : List Chunk) (points : List ℕ) (i : ℕ) :
    Prop :=
  i = 0 ∨ ∃ before c after, cs = before ++ c :: after ∧ compare c.2.1 target = .lt ∧
    points[i]? = some (chunksBytes before).length

theorem BlockIter.Reads.searchRestart (h : it.Reads cs points) (hl : Layout cs points) {left right : ℕ}
    (hright : right < points.length) (hleft : LowPoint compare target cs points left) (hle : left ≤ right) :
    ∃ i, it.searchRestart compare target left right = some i ∧ i < points.length ∧
      LowPoint compare target cs points i := by
  induction hn : right - left using Nat.strong_induction_on generalizing left right with
  | _ n ih =>
    rw [BlockIter.searchRestart]
    by_cases hlt : left < right
    · have hmid : (left + right + 1) / 2 < points.length := by omega
      have hp : points[(left + right + 1) / 2]? = some points[(left + right + 1) / 2] :=
        List.getElem?_eq_getElem hmid
      obtain ⟨before, c, after, r, hsplit, hlen, hdecode, hzero, hkey⟩ := h.decodeRestart hl (by omega) hp
      rw [if_pos hlt, hdecode]
      dsimp only
      rw [if_neg (not_not.mpr hzero), hkey]
      by_cases hcmp : compare c.2.1 target = .lt
      · rw [if_pos hcmp]
        exact ih _ (by omega) hright (.inr ⟨before, c, after, hsplit, hcmp, hlen ▸ hp⟩) (by omega) rfl
      · rw [if_neg hcmp]
        exact ih _ (by omega) (by omega) hleft (by omega) rfl
    · rw [if_neg hlt]
      exact ⟨left, rfl, lt_of_le_of_lt hle hright, hleft⟩

theorem Layout.length_points_pos (hl : Layout cs points) : 0 < points.length :=
  (List.getElem?_eq_some_iff.mp hl.getElem?_zero).1

/-- **`Seek` finds the first entry whose key is not smaller than the target.** -/
theorem BlockIter.Reads.seek (h : it.Reads cs points) (hl : Layout cs points) (hasc : Ascending compare cs)
    (htrans : ∀ a b c, compare a b = .lt → compare b c = .lt → compare a c = .lt) :
    (it.Seek compare target).Stands cs points (cs.takeWhile (isBefore compare target)).length := by
  have hpos := hl.length_points_pos
  obtain ⟨i, hsearch, hi, hlow⟩ := @BlockIter.Reads.searchRestart cs points it compare target h hl 0
    (it.num_restarts_ - 1) (by rw [h.num_restarts]; omega) (.inl rfl) (Nat.zero_le _)
  obtain ⟨hreads, before, after, hready, hlen, -⟩ := h.seekToRestartPoint hl (List.getElem?_eq_getElem hi)
  -- the entries before the restart point have smaller keys
  have hbefore : ∀ d ∈ before, isBefore compare target d = true := by
    rcases hlow with rfl | ⟨before', c, after', hsplit, hcmp, hpoint⟩
    · have hget := List.getElem?_eq_getElem hi
      rw [hl.getElem?_zero, hlen] at hget
      cases before with
      | nil => exact fun d hd => absurd hd List.not_mem_nil
      | cons d before =>
        have hchunk := length_chunkBytes_pos d.1 d.2.1 d.2.2
        have hzero := Option.some.inj hget
        rw [chunksBytes_cons, List.length_append] at hzero
        omega
    · have hget := List.getElem?_eq_getElem hi
      rw [hpoint, hlen] at hget
      obtain rfl := before_eq_of_length (hsplit.symm.trans hready.split) (Option.some.inj hget)
      rw [hsplit] at hasc
      intro d hd
      exact decide_eq_true (htrans _ _ _ ((List.pairwise_append.mp hasc).2.2 d hd c List.mem_cons_self) hcmp)
  have hscan := @BlockIter.Ready.scanFor cs before after points _ compare target hready hreads hl
  rw [BlockIter.Seek, hsearch]
  dsimp only
  rw [hready.split, List.takeWhile_append_of_pos hbefore, List.length_append]
  rwa [hready.split] at hscan

end Seek

end Iterate

/-! ## Builder -/

theorem sharedLength_le (a b : Bytes) : sharedLength a b ≤ a.length ∧ sharedLength a b ≤ b.length ∧
    a.take (sharedLength a b) = b.take (sharedLength a b) := by
  induction a, b using sharedLength.induct with
  | case1 a as bs ih =>
    rw [sharedLength, if_pos rfl]
    obtain ⟨hl, hr, htake⟩ := ih
    refine ⟨Nat.succ_le_succ hl, Nat.succ_le_succ hr, ?_⟩
    rw [List.take_succ_cons, List.take_succ_cons, htake]
  | case2 a as b bs hne =>
    rw [sharedLength, if_neg hne]
    exact ⟨Nat.zero_le _, Nat.zero_le _, rfl⟩
  | case3 a b hcons =>
    have hzero : sharedLength a b = 0 := by
      rw [sharedLength]
      exact hcons
    rw [hzero]
    exact ⟨Nat.zero_le _, Nat.zero_le _, rfl⟩

/-- The key of the last entry. -/
def lastKey : Bytes → List Chunk → Bytes
  | last, [] => last
  | _, c :: cs => lastKey c.2.1 cs

theorem lastKey_append (last : Bytes) (cs : List Chunk) (c : Chunk) : lastKey last (cs ++ [c]) = c.2.1 := by
  induction cs generalizing last with
  | nil => rfl
  | cons d cs ih => exact ih d.2.1

theorem Shares.append {last : Bytes} {cs : List Chunk} {c : Chunk} (h : Shares last cs)
    (hlast : c.1 ≤ (lastKey last cs).length) (hkey : c.1 ≤ c.2.1.length)
    (htake : (lastKey last cs).take c.1 = c.2.1.take c.1) : Shares last (cs ++ [c]) := by
  induction cs generalizing last with
  | nil => exact ⟨hlast, hkey, htake, trivial⟩
  | cons d cs ih => exact ⟨h.1, h.2.1, h.2.2.1, ih h.2.2.2 hlast htake⟩

/-- What has been added to a builder. -/
structure BlockBuilder.Holds (b : BlockBuilder) (cs : List Chunk) : Prop where
  buffer : b.buffer_ = chunksBytes cs
  last : b.last_key_ = lastKey [] cs
  layout : Layout cs b.restarts_

theorem BlockBuilder.Holds.new (interval : ℕ) : (BlockBuilder.new interval).Holds [] := by
  refine ⟨rfl, rfl, trivial, rfl, fun i p hp => .inl ?_⟩
  cases i with
  | zero => exact ⟨rfl, rfl, (Option.some.inj hp).symm⟩
  | succ i => cases hp

theorem Layout.append {cs : List Chunk} {points : List ℕ} {c : Chunk} (h : Layout cs points)
    (hshares : Shares [] (cs ++ [c])) : Layout (cs ++ [c]) points := by
  refine ⟨hshares, h.first, fun i p hp => .inr ?_⟩
  rcases h.restart i p hp with ⟨rfl, -, rfl⟩ | ⟨before, d, after, rfl, hd, hlen⟩
  · exact ⟨[], c, [], rfl, Nat.le_zero.mp hshares.1, rfl⟩
  · exact ⟨before, d, after ++ [c], by rw [List.append_assoc, List.cons_append], hd, hlen⟩

theorem Layout.append_point {cs : List Chunk} {points : List ℕ} {c : Chunk} (h : Layout (cs ++ [c]) points)
    (hc : c.1 = 0) : Layout (cs ++ [c]) (points ++ [(chunksBytes cs).length]) := by
  refine ⟨h.shares, ?_, fun i p hp => ?_⟩
  · rw [List.head?_append, h.first, Option.some_or]
  · rcases lt_or_ge i points.length with hi | hi
    · rw [List.getElem?_append_left hi] at hp
      exact h.restart i p hp
    · rw [List.getElem?_append_right hi] at hp
      obtain rfl := List.mem_singleton.mp (List.mem_of_getElem? hp)
      exact .inr ⟨cs, c, [], rfl, hc, rfl⟩

theorem chunksBytes_concat (cs : List Chunk) (c : Chunk) :
    chunksBytes (cs ++ [c]) = chunksBytes cs ++ chunkBytes c.1 c.2.1 c.2.2 := by
  rw [chunksBytes_append, chunksBytes_cons]
  simp only [chunksBytes, List.flatMap_nil, List.append_nil]

/-- **An entry is added behind the others.** -/
theorem BlockBuilder.Holds.add {b : BlockBuilder} {cs : List Chunk} (h : b.Holds cs) (key value : Bytes) :
    ∃ s, (b.Add key value).Holds (cs ++ [(s, key, value)]) := by
  have hkeep : ∀ s, s ≤ b.last_key_.length → s ≤ key.length → b.last_key_.take s = key.take s →
      b.last_key_.take s ++ key.drop s = lastKey [] (cs ++ [(s, key, value)]) ∧
        Layout (cs ++ [(s, key, value)]) b.restarts_ := fun s hlast hkey htake => by
    refine ⟨by rw [htake, List.take_append_drop, lastKey_append],
      h.layout.append (h.layout.shares.append ?_ hkey ?_)⟩
    · rw [← h.last]
      exact hlast
    · rw [← h.last]
      exact htake
  by_cases hshare : b.counter_ < b.block_restart_interval
  · obtain ⟨hlast, hkey, htake⟩ := sharedLength_le b.last_key_ key
    obtain ⟨hlast', hlayout⟩ := hkeep _ hlast hkey htake
    refine ⟨sharedLength b.last_key_ key, ?_⟩
    rw [BlockBuilder.Add, if_pos hshare]
    exact ⟨by rw [chunksBytes_concat, ← h.buffer], hlast', hlayout⟩
  · obtain ⟨hlast', hlayout⟩ := hkeep 0 (Nat.zero_le _) (Nat.zero_le _) rfl
    refine ⟨0, ?_⟩
    rw [BlockBuilder.Add, if_neg hshare]
    refine ⟨by rw [chunksBytes_concat, ← h.buffer], hlast', ?_⟩
    dsimp only
    rw [h.buffer]
    exact hlayout.append_point rfl

theorem BlockBuilder.Holds.addAll {b : BlockBuilder} {cs : List Chunk} (h : b.Holds cs)
    (entries : List (Bytes × Bytes)) :
    ∃ cs', (entries.foldl (fun b e => b.Add e.1 e.2) b).Holds cs' ∧
      cs'.map Prod.snd = cs.map Prod.snd ++ entries := by
  induction entries generalizing b cs with
  | nil => exact ⟨cs, h, (List.append_nil _).symm⟩
  | cons e entries ih =>
    obtain ⟨s, hadd⟩ := h.add e.1 e.2
    obtain ⟨cs', hcs', hmap⟩ := ih hadd
    refine ⟨cs', hcs', ?_⟩
    rw [hmap, List.map_append, List.append_assoc]
    rfl

/-- **The block that is built is read by an iterator.** -/
theorem BlockBuilder.Holds.newIterator {b : BlockBuilder} {cs : List Chunk} (h : b.Holds cs)
    (hsize : b.Finish.length < 2 ^ 32) :
    ∃ it, (Block.new b.Finish).NewIterator = .ok (some it) ∧ it.Stands cs b.restarts_ cs.length := by
  have hpos := h.layout.length_points_pos
  have hfinish :
      b.Finish = chunksBytes cs ++ (fixed32s b.restarts_ ++ EncodeFixed32 (UInt32.ofNat b.restarts_.length)) := by
    rw [BlockBuilder.Finish, h.buffer, List.append_assoc]
    rfl
  have hlen : b.Finish.length = (chunksBytes cs).length + b.restarts_.length * 4 + 4 := by
    rw [hfinish, List.length_append, List.length_append, length_encodeFixed32, length_fixed32s, Nat.add_assoc]
  have hnum : NumRestarts b.Finish = b.restarts_.length := by
    have hdrop : b.Finish.drop (b.Finish.length - 4) = EncodeFixed32 (UInt32.ofNat b.restarts_.length) ++ [] := by
      rw [hlen, Nat.add_sub_cancel, hfinish, List.append_nil, ← List.append_assoc]
      refine List.drop_left' ?_
      rw [List.length_append, length_fixed32s]
    rw [NumRestarts, hdrop, decodeFixed32_encodeFixed32, UInt32.toNat_ofNat', Nat.mod_eq_of_lt (by omega)]
  have hnew : Block.new b.Finish = ⟨b.Finish, b.Finish.length, (chunksBytes cs).length⟩ := by
    rw [Block.new, if_neg (by omega), hnum, if_neg (by omega)]
    congr 1
    omega
  refine ⟨.new b.Finish (chunksBytes cs).length b.restarts_.length, ?_,
    ⟨⟨EncodeFixed32 (UInt32.ofNat b.restarts_.length), ?_⟩, rfl, rfl, rfl, by omega⟩, .inr ⟨rfl, rfl⟩⟩
  · rw [hnew, Block.NewIterator, if_neg (by dsimp only; omega)]
    dsimp only
    rw [hnum, if_neg hpos.ne']
  · exact hfinish

/-! ## Cursor -/

inductive CursorOp
  | SeekToFirst
  | SeekToLast
  | Seek (target : Bytes)
  | Next
  | Prev

/-- A cursor on a list of entries: the number of an entry, or of none behind the last. -/
def Cursor.step (compare : Bytes → Bytes → Ordering) (entries : List (Bytes × Bytes)) (pos : ℕ) : CursorOp → Option ℕ
  | .SeekToFirst => some 0
  | .SeekToLast => some (entries.length - 1)
  | .Seek target => some (entries.takeWhile fun e => compare e.1 target = .lt).length
  | .Next => if pos < entries.length then some (pos + 1) else none
  | .Prev => if pos < entries.length then some (if pos = 0 then entries.length else pos - 1) else none

/-- The moves of an iterator; `Next` and `Prev` assert that it is valid. -/
def BlockIter.step (compare : Bytes → Bytes → Ordering) (it : BlockIter) : CursorOp → Option BlockIter
  | .SeekToFirst => some it.SeekToFirst
  | .SeekToLast => some it.SeekToLast
  | .Seek target => some (it.Seek compare target)
  | .Next => if it.Valid then some it.Next else none
  | .Prev => if it.Valid then some it.Prev else none

/-- What an iterator shows at a position. -/
structure BlockIter.Shows (it : BlockIter) (entries : List (Bytes × Bytes)) (pos : ℕ) : Prop where
  status : it.status_ = .OK
  valid : it.Valid ↔ pos < entries.length
  entry : ∀ e, entries[pos]? = some e → it.key_ = e.1 ∧ it.value = e.2

section Cursor

variable {cs : List Chunk} {points : List ℕ} {it : BlockIter} {pos : ℕ}

theorem BlockIter.Stands.shows (h : it.Stands cs points pos) : it.Shows (cs.map Prod.snd) pos := by
  obtain ⟨hr, ⟨before, c, after, hat, rfl⟩ | ⟨hend, rfl⟩⟩ := h
  · have hlt := length_chunksBytes_lt hat.split
    refine ⟨hr.status, iff_of_true ?_ ?_, fun e he => ?_⟩
    · rw [BlockIter.Valid, hat.current, hr.restarts]
      exact hlt
    · rw [hat.split]
      simp
    · rw [hat.split, List.map_append, List.getElem?_append_right (by rw [List.length_map]), List.length_map,
        Nat.sub_self] at he
      obtain rfl := Option.some.inj he
      exact ⟨hat.key, hat.value⟩
  · refine ⟨hr.status, iff_of_false ?_ ?_, fun e he => ?_⟩
    · rw [BlockIter.Valid, hend]
      exact lt_irrefl _
    · rw [List.length_map]
      exact lt_irrefl _
    · rw [List.getElem?_eq_none (by rw [List.length_map])] at he
      cases he

variable {compare : Bytes → Bytes → Ordering}

/-- **Every move of the iterator is that of the cursor.** -/
theorem BlockIter.Stands.step (h : it.Stands cs points pos) (hl : Layout cs points) (hasc : Ascending compare cs)
    (htrans : ∀ a b c, compare a b = .lt → compare b c = .lt → compare a c = .lt) (o : CursorOp) :
    Option.Rel (fun it' pos' => it'.Stands cs points pos') (it.step compare o)
      (Cursor.step compare (cs.map Prod.snd) pos o) := by
  have hshows := h.shows
  obtain ⟨hr, hstands⟩ := h
  have hlen : (cs.map Prod.snd).length = cs.length := List.length_map _
  cases o with
  | SeekToFirst => exact .some (hr.seekToFirst hl)
  | SeekToLast =>
    rw [Cursor.step, hlen]
    exact .some (hr.seekToLast hl)
  | Seek target =>
    have hseek := @BlockIter.Reads.seek cs points it compare target hr hl hasc htrans
    rw [Cursor.step, List.takeWhile_map, List.length_map]
    exact .some hseek
  | Next =>
    rw [BlockIter.step, Cursor.step]
    by_cases hvalid : it.Valid
    · rw [if_pos hvalid, if_pos (hshows.valid.mp hvalid)]
      rcases hstands with ⟨before, c, after, hat, rfl⟩ | ⟨hend, -⟩
      · exact .some (hat.next hr hl)
      · exact absurd hvalid (by rw [BlockIter.Valid, hend]; exact lt_irrefl _)
    · rw [if_neg hvalid, if_neg (mt hshows.valid.mpr hvalid)]
      exact .none
  | Prev =>
    rw [BlockIter.step, Cursor.step]
    by_cases hvalid : it.Valid
    · rw [if_pos hvalid, if_pos (hshows.valid.mp hvalid), hlen]
      rcases hstands with ⟨before, c, after, hat, rfl⟩ | ⟨hend, -⟩
      · have hprev := hat.prev hr hl
        simp only [← List.length_eq_zero_iff] at hprev
        exact .some hprev
      · exact absurd hvalid (by rw [BlockIter.Valid, hend]; exact lt_irrefl _)
    · rw [if_neg hvalid, if_neg (mt hshows.valid.mpr hvalid)]
      exact .none

/-- **An iterator moves like a cursor.** Of a block that was built from ascending entries, whatever its restart
interval, an iterator stays in step with a cursor on these entries, over all runs of moves: it shows the entry
that the cursor stands on, and is invalid exactly behind the last. -/
theorem block_cursor (htrans : ∀ a b c, compare a b = .lt → compare b c = .lt → compare a c = .lt) (interval : ℕ)
    (entries : List (Bytes × Bytes)) (hasc : entries.Pairwise fun e e' => compare e.1 e'.1 = .lt)
    (hsize : (entries.foldl (fun b e => b.Add e.1 e.2) (BlockBuilder.new interval)).Finish.length < 2 ^ 32) :
    ∃ it, (Block.new (entries.foldl (fun b e => b.Add e.1 e.2) (BlockBuilder.new interval)).Finish).NewIterator =
        .ok (some it) ∧
      ∀ ops, Option.Rel (fun it' pos => it'.Shows entries pos) (run (BlockIter.step compare) it ops)
        (run (Cursor.step compare entries) entries.length ops) := by
  obtain ⟨cs, hholds, hmap⟩ := (BlockBuilder.Holds.new interval).addAll entries
  rw [List.map_nil, List.nil_append] at hmap
  subst hmap
  obtain ⟨it, hnew, hstands⟩ := hholds.newIterator hsize
  refine ⟨it, hnew, fun ops => ?_⟩
  have hasc' : Ascending compare cs := List.pairwise_map.mp hasc
  rw [List.length_map]
  exact run_simulates _ _ (fun _ _ o h => BlockIter.Stands.step h hholds.layout hasc' htrans o)
    (fun _ _ h => BlockIter.Stands.shows h) hstands ops

theorem block_cursor_three :
    ∃ it, (Block.new ([([1], [7]), ([1, 2], []), ([3], [8, 9])].foldl (fun b e => b.Add e.1 e.2)
        (BlockBuilder.new 2)).Finish).NewIterator = .ok (some it) ∧
      ∀ ops, Option.Rel (fun it' pos => it'.Shows [([1], [7]), ([1, 2], []), ([3], [8, 9])] pos)
        (run (BlockIter.step sliceCompare) it ops)
        (run (Cursor.step sliceCompare [([1], [7]), ([1, 2], []), ([3], [8, 9])]) 3 ops) :=
  block_cursor sliceCompare_trans 2 _ (by decide) (by decide)

end Cursor

end Inery.Leveldb
