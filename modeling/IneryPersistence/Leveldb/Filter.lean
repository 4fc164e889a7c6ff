import IneryPersistence.Leveldb.MemTable
import Mathlib.Data.List.GetD
import Mathlib.Data.Nat.Bitwise

/-!
# Filters of a table

* `Hash`, `BloomFilterPolicy`: a filter of bits, and `InternalFilterPolicy` on the user keys;
* `FilterPolicy.Sound`: a key matches the filters that are created for it, **`BloomFilterPolicy.sound`**;
* `FilterBlockBuilder`, `FilterBlockReader`: the filters of a table, one for each 2048 bytes of blocks;
* `FilterBlockBuilder.Holds`: the keys that were added in blocks, kept by `StartBlock` and `AddKey`;
* **`FilterBlockBuilder.Holds.keyMayMatch`**: a key matches at the offset of its block;
* **`keyMayMatch_of_added`**: the filter block of a table excludes no key that a block has.
-/

namespace Inery.Leveldb

open KV

/-! ## Hash -/

/-- A `char` in an expression: it is signed. -/
def signedChar (b : Byte) : UInt32 := UInt32.ofNat (if b.val < 128 then b.val else b.val + 0xffffff00)

/-- The loop of `Hash`, four bytes at a time, and the bytes that remain. -/
def hashLoop (m : UInt32) (h : UInt32) : Bytes → UInt32
  | a :: b :: c :: d :: data =>
    let h := (h + DecodeFixed32 [a, b, c, d]) * m
    hashLoop m (h ^^^ (h >>> 16)) data
  | [a, b, c] =>
    let h := (h + (signedChar c <<< 16) + (signedChar b <<< 8) + signedChar a) * m
    h ^^^ (h >>> 24)
  | [a, b] =>
    let h := (h + (signedChar b <<< 8) + signedChar a) * m
    h ^^^ (h >>> 24)
  | [a] =>
    let h := (h + signedChar a) * m
    h ^^^ (h >>> 24)
  | [] => h

def Hash (data : Bytes) (seed : UInt32) : UInt32 :=
  hashLoop 0xc6a4a793 (seed ^^^ (UInt32.ofNat data.length * 0xc6a4a793)) data

def BloomHash (key : Bytes) : UInt32 := Hash key 0xbc9f1d34

/-! ## Policies -/

/-- `FilterPolicy`: a filter for keys is appended to `dst`. -/
structure FilterPolicy where
  Name : Bytes
  CreateFilter : List Bytes → Bytes → Bytes
  KeyMayMatch : Bytes → Bytes → Bool

/-- A key like one of those a filter was created for matches it. -/
def FilterPolicy.Sound (policy : FilterPolicy) (like : Bytes → Bytes → Prop) : Prop :=
  ∀ (keys : List Bytes) (dst : Bytes), ∃ filter, policy.CreateFilter keys dst = dst ++ filter ∧
    ∀ key ∈ keys, ∀ key', like key' key → policy.KeyMayMatch key' filter = true

/-- The number of probes `k_` is between 1 and 30. -/
structure BloomFilterPolicy where
  bits_per_key_ : ℕ
  k_ : ℕ
  one_le : 1 ≤ k_
  le : k_ ≤ 30

namespace BloomFilterPolicy

/-- `array[bitpos/8] & (1 << (bitpos % 8))`. -/
def bitAt (array : Bytes) (bitpos : ℕ) : Bool := (array.getD (bitpos / 8) 0).val &&& (1 <<< (bitpos % 8)) ≠ 0

/-- `array[bitpos/8] |= (1 << (bitpos % 8))`. -/
def setBit (array : Bytes) (bitpos : ℕ) : Bytes :=
  array.modify (bitpos / 8) fun b => Fin.ofNat 256 (b.val ||| 1 <<< (bitpos % 8))

def rotate (h : UInt32) : UInt32 := (h >>> 17) ||| (h <<< 15)

/-- The probes of `CreateFilter` for one key. -/
def setProbes (bits : ℕ) (delta : UInt32) : ℕ → UInt32 → Bytes → Bytes
  | 0, _, array => array
  | k + 1, h, array => setProbes bits delta k (h + delta) (setBit array (h.toNat % bits))

/-- The probes of `KeyMayMatch`. -/
def testProbes (bits : ℕ) (delta : UInt32) (array : Bytes) : ℕ → UInt32 → Bool
  | 0, _ => true
  | k + 1, h => if bitAt array (h.toNat % bits) = false then false else testProbes bits delta array k (h + delta)

def filterBytes (policy : BloomFilterPolicy) (n : ℕ) : ℕ :=
  ((if n * policy.bits_per_key_ < 64 then 64 else n * policy.bits_per_key_) + 7) / 8

/-- The loop of `CreateFilter`. -/
def setKeys (k bits : ℕ) (keys : List Bytes) (array : Bytes) : Bytes :=
  keys.foldl (fun array key => setProbes bits (rotate (BloomHash key)) k (BloomHash key) array) array

def CreateFilter (policy : BloomFilterPolicy) (keys : List Bytes) (dst : Bytes) : Bytes :=
  let bytes := policy.filterBytes keys.length
  dst ++ (setKeys policy.k_ (bytes * 8) keys (List.replicate bytes 0) ++ [Fin.ofNat 256 policy.k_])

def KeyMayMatch (key bloom_filter : Bytes) : Bool :=
  if bloom_filter.length < 2 then false
  else
    let k := (bloom_filter.getD (bloom_filter.length - 1) 0).val
    if 30 < k then true
    else testProbes ((bloom_filter.length - 1) * 8) (rotate (BloomHash key)) bloom_filter k (BloomHash key)

end BloomFilterPolicy

/-- `NewBloomFilterPolicy`. -/
def BloomFilterPolicy.policy (policy : BloomFilterPolicy) (Name : Bytes) : FilterPolicy :=
  ⟨Name, policy.CreateFilter, BloomFilterPolicy.KeyMayMatch⟩

/-- The policy of a database: filters are for the user keys. -/
def InternalFilterPolicy (user_policy : FilterPolicy) : FilterPolicy :=
  ⟨user_policy.Name, fun keys dst => user_policy.CreateFilter (keys.map ExtractUserKey) dst,
    fun key f => user_policy.KeyMayMatch (ExtractUserKey key) f⟩

theorem InternalFilterPolicy.sound {user_policy : FilterPolicy} (h : user_policy.Sound Eq) :
    (InternalFilterPolicy user_policy).Sound fun key key' => ExtractUserKey key = ExtractUserKey key' := by
  intro keys dst
  obtain ⟨filter, hcreate, hmatch⟩ := h (keys.map ExtractUserKey) dst
  exact ⟨filter, hcreate, fun key hkey key' hlike => hmatch _ (List.mem_map_of_mem hkey) _ hlike⟩

namespace BloomFilterPolicy

/-! ## Bits -/

theorem bitAt_eq_testBit (array : Bytes) (bitpos : ℕ) :
    bitAt array bitpos = (array.getD (bitpos / 8) 0).val.testBit (bitpos % 8) := by
  rw [bitAt, Bool.eq_iff_iff, decide_eq_true_iff, Nat.shiftLeft_eq, Nat.one_mul, Nat.and_two_pow]
  cases (array.getD (bitpos / 8) 0).val.testBit (bitpos % 8) <;> simp

@[simp] theorem length_setBit (array : Bytes) (bitpos : ℕ) : (setBit array bitpos).length = array.length :=
  List.length_modify _ _ _

theorem testBit_setByte (b : Byte) {i : ℕ} (hi : i < 8) (j : ℕ) :
    (Fin.ofNat 256 (b.val ||| 1 <<< i) : Byte).val.testBit j = (b.val.testBit j || decide (j = i)) := by
  have hlt : b.val ||| 1 <<< i < 2 ^ 8 := by
    refine Nat.or_lt_two_pow b.isLt ?_
    rw [Nat.shiftLeft_eq, Nat.one_mul]
    exact Nat.pow_lt_pow_right (by omega) hi
  have hval : (Fin.ofNat 256 (b.val ||| 1 <<< i) : Byte).val = b.val ||| 1 <<< i := Nat.mod_eq_of_lt hlt
  rw [hval, Nat.testBit_or, Nat.shiftLeft_eq, Nat.one_mul, Nat.testBit_two_pow]
  simp [eq_comm]

theorem bitAt_setBit {array : Bytes} {p : ℕ} (hp : p < array.length * 8) (q : ℕ) :
    bitAt (setBit array p) q = (bitAt array q || decide (q = p)) := by
  have hlt : p / 8 < array.length := by omega
  have hi : p % 8 < 8 := Nat.mod_lt _ (by omega)
  rw [bitAt_eq_testBit, bitAt_eq_testBit, setBit, List.getD_eq_getElem?_getD, List.getElem?_modify,
    List.getD_eq_getElem?_getD]
  by_cases hbyte : p / 8 = q / 8
  · simp only [if_pos hbyte]
    rw [← hbyte, List.getElem?_eq_getElem hlt, Option.map_eq_map, Option.map_some, Option.getD_some,
      Option.getD_some, testBit_setByte _ hi]
    congr 1
    rw [Bool.eq_iff_iff, decide_eq_true_iff, decide_eq_true_iff]
    omega
  · have hne : ¬ q = p := fun heq => hbyte (by rw [heq])
    simp only [if_neg hbyte]
    rw [decide_eq_false hne, Bool.or_false, Option.map_eq_map, Option.map_id']

/-- Every bit of a filter is in another one of its size. -/
structure Covers (array array' : Bytes) : Prop where
  length : array'.length = array.length
  bits : ∀ p, bitAt array p = true → bitAt array' p = true

theorem Covers.refl (array : Bytes) : Covers array array := ⟨rfl, fun _ h => h⟩

theorem Covers.trans {a b c : Bytes} (h : Covers a b) (h' : Covers b c) : Covers a c :=
  ⟨h'.length.trans h.length, fun p hp => h'.bits p (h.bits p hp)⟩

theorem covers_setBit {array : Bytes} {p : ℕ} (hp : p < array.length * 8) : Covers array (setBit array p) :=
  ⟨length_setBit array p, fun q hq => by rw [bitAt_setBit hp, hq, Bool.true_or]⟩

section Probes

variable {array : Bytes} {bits : ℕ} (hbits : bits = array.length * 8) (hpos : 0 < bits)

include hbits hpos

theorem covers_setProbes (delta : UInt32) (k : ℕ) (h : UInt32) : Covers array (setProbes bits delta k h array) := by
  induction k generalizing h array with
  | zero => exact Covers.refl array
  | succ k ih =>
    have hset := covers_setBit (hbits ▸ Nat.mod_lt h.toNat hpos : h.toNat % bits < array.length * 8)
    exact hset.trans (ih (by rw [length_setBit, hbits]) _)

theorem testProbes_setProbes (delta : UInt32) (k : ℕ) (h : UInt32) {array' : Bytes}
    (hcovers : Covers (setProbes bits delta k h array) array') : testProbes bits delta array' k h = true := by
  induction k generalizing h array with
  | zero => rfl
  | succ k ih =>
    have hlt : h.toNat % bits < array.length * 8 := hbits ▸ Nat.mod_lt h.toNat hpos
    have hlen : bits = (setBit array (h.toNat % bits)).length * 8 := by rw [length_setBit, hbits]
    have hset : bitAt array' (h.toNat % bits) = true := by
      refine (Covers.trans (covers_setProbes hlen hpos delta k (h + delta)) hcovers).bits _ ?_
      rw [bitAt_setBit hlt, decide_eq_true rfl, Bool.or_true]
    rw [testProbes, if_neg (by rw [hset]; simp)]
    exact ih hlen (h + delta) hcovers

end Probes

theorem testProbes_append (bits : ℕ) (delta : UInt32) {array : Bytes} (hbits : bits = array.length * 8)
    (hpos : 0 < bits) (rest : Bytes) (k : ℕ) (h : UInt32) :
    testProbes bits delta (array ++ rest) k h = testProbes bits delta array k h := by
  induction k generalizing h with
  | zero => rfl
  | succ k ih =>
    have hlt := Nat.mod_lt h.toNat hpos
    have hbyte : bitAt (array ++ rest) (h.toNat % bits) = bitAt array (h.toNat % bits) := by
      rw [bitAt, bitAt, List.getD_append _ _ _ _ (by omega)]
    rw [testProbes, testProbes, hbyte, ih]

theorem testProbes_setKeys {bits : ℕ} (hpos : 0 < bits) (k : ℕ) (keys : List Bytes) {array : Bytes}
    (hbits : bits = array.length * 8) :
    Covers array (setKeys k bits keys array) ∧
      ∀ key ∈ keys, testProbes bits (rotate (BloomHash key)) (setKeys k bits keys array) k (BloomHash key) =
        true := by
  induction keys generalizing array with
  | nil => exact ⟨Covers.refl array, fun key hkey => by cases hkey⟩
  | cons key keys ih =>
    have hset := covers_setProbes hbits hpos (rotate (BloomHash key)) k (BloomHash key)
    obtain ⟨hcovers, hrest⟩ := ih (by rw [hset.length, hbits])
    refine ⟨hset.trans hcovers, fun key' hkey' => ?_⟩
    rcases List.mem_cons.mp hkey' with rfl | hkey'
    · exact testProbes_setProbes hbits hpos _ _ _ hcovers
    · exact hrest key' hkey'

/-- **A Bloom filter matches every key it was created for.** -/
theorem sound (policy : BloomFilterPolicy) (Name : Bytes) : (policy.policy Name).Sound Eq := by
  intro keys dst
  refine ⟨_, rfl, fun key' hkey' key hlike => ?_⟩
  subst hlike
  have hbytes : 0 < policy.filterBytes keys.length := by
    rw [filterBytes]
    split_ifs <;> omega
  generalize policy.filterBytes keys.length = bytes at hbytes ⊢
  have hzeros : bytes * 8 = (List.replicate bytes (0 : Byte)).length * 8 := by rw [List.length_replicate]
  obtain ⟨hcovers, hprobes⟩ := testProbes_setKeys (by omega) policy.k_ keys hzeros
  have hlen := hcovers.length.trans List.length_replicate
  generalize setKeys policy.k_ (bytes * 8) keys (List.replicate bytes 0) = array at hprobes hlen ⊢
  have hk : (Fin.ofNat 256 policy.k_ : Byte).val = policy.k_ :=
    Nat.mod_eq_of_lt (lt_of_le_of_lt policy.le (by decide))
  have hlast : (array ++ [Fin.ofNat 256 policy.k_]).getD
      ((array ++ [(Fin.ofNat 256 policy.k_ : Byte)]).length - 1) 0 = Fin.ofNat 256 policy.k_ := by
    rw [List.length_append, List.length_singleton, Nat.add_sub_cancel, List.getD_append_right _ _ _ _ le_rfl,
      Nat.sub_self]
    rfl
  change KeyMayMatch key (array ++ [Fin.ofNat 256 policy.k_]) = true
  rw [KeyMayMatch, if_neg (by rw [List.length_append, List.length_singleton]; omega)]
  dsimp only
  rw [hlast, hk, if_neg (not_lt.mpr policy.le), List.length_append, List.length_singleton, Nat.add_sub_cancel, hlen,
    testProbes_append _ _ (by rw [hlen]) (by omega)]
  exact hprobes key hkey'

end BloomFilterPolicy

/-! ## Filter block -/

/-- `kFilterBase`. -/
def kFilterBase : ℕ := 2 ^ 11

structure FilterBlockBuilder where
  policy_ : FilterPolicy
  keys_ : Bytes
  start_ : List ℕ
  result_ : Bytes
  filter_offsets_ : List ℕ

namespace FilterBlockBuilder

def new (policy : FilterPolicy) : FilterBlockBuilder := ⟨policy, [], [], [], []⟩

variable (b : FilterBlockBuilder)

/-- The keys from the flattened key structure. -/
def tmp_keys : List Bytes :=
  List.zipWith (fun start limit => (b.keys_.drop start).take (limit - start)) b.start_
    (b.start_ ++ [b.keys_.length]).tail

def GenerateFilter : FilterBlockBuilder :=
  if b.start_.length = 0 then { b with filter_offsets_ := b.filter_offsets_ ++ [b.result_.length] }
  else
    { b with
      filter_offsets_ := b.filter_offsets_ ++ [b.result_.length]
      result_ := b.policy_.CreateFilter b.tmp_keys b.result_
      keys_ := []
      start_ := [] }

/-- `StartBlock`: filters are generated while there are fewer than the number of the block's. -/
def StartBlock (block_offset : ℕ) : FilterBlockBuilder :=
  GenerateFilter^[block_offset / kFilterBase - b.filter_offsets_.length] b

def AddKey (key : Bytes) : FilterBlockBuilder :=
  { b with start_ := b.start_ ++ [b.keys_.length], keys_ := b.keys_ ++ key }

def Finish : Bytes :=
  let b := if b.start_ = [] then b else b.GenerateFilter
  b.result_ ++ ((b.filter_offsets_.flatMap fun offset => EncodeFixed32 (UInt32.ofNat offset)) ++
    (EncodeFixed32 (UInt32.ofNat b.result_.length) ++ [11]))

end FilterBlockBuilder

/-- The offset array begins at `offset_`. -/
structure FilterBlockReader where
  policy_ : FilterPolicy
  data_ : Bytes
  offset_ : ℕ
  num_ : ℕ
  base_lg_ : ℕ

def FilterBlockReader.new (policy : FilterPolicy) (contents : Bytes) : FilterBlockReader :=
  let n := contents.length
  if n < 5 then ⟨policy, [], 0, 0, 0⟩
  else
    let base_lg := (contents.getD (n - 1) 0).val
    let last_word := (DecodeFixed32 (contents.drop (n - 5))).toNat
    if n - 5 < last_word then ⟨policy, [], 0, 0, base_lg⟩
    else ⟨policy, contents, last_word, (n - 5 - last_word) / 4, base_lg⟩

def FilterBlockReader.KeyMayMatch (r : FilterBlockReader) (block_offset : ℕ) (key : Bytes) : Bool :=
  let index := block_offset >>> r.base_lg_
  if index < r.num_ then
    let start := (DecodeFixed32 (r.data_.drop (r.offset_ + index * 4))).toNat
    let limit := (DecodeFixed32 (r.data_.drop (r.offset_ + index * 4 + 4))).toNat
    if start ≤ limit ∧ limit ≤ r.offset_ then r.policy_.KeyMayMatch key ((r.data_.drop start).take (limit - start))
    else if start = limit then false
    else true
  else true

/-! ## Positions of slices -/

/-- Where slices begin that are written one after the other. -/
def startsOf (n : ℕ) : List Bytes → List ℕ
  | [] => []
  | s :: ss => n :: startsOf (n + s.length) ss

theorem startsOf_append (n : ℕ) (ss : List Bytes) (s : Bytes) :
    startsOf n (ss ++ [s]) = startsOf n ss ++ [n + ss.flatten.length] := by
  induction ss generalizing n with
  | nil => rfl
  | cons s' ss ih =>
    rw [List.cons_append, startsOf, ih, List.flatten_cons, List.length_append, Nat.add_assoc]
    rfl

theorem length_startsOf (n : ℕ) (ss : List Bytes) : (startsOf n ss).length = ss.length := by
  induction ss generalizing n with
  | nil => rfl
  | cons s ss ih => rw [startsOf, List.length_cons, ih, List.length_cons]

theorem getElem?_startsOf (n : ℕ) {ss : List Bytes} {i : ℕ} (hi : i < ss.length) :
    (startsOf n ss)[i]? = some (n + (ss.take i).flatten.length) := by
  induction ss generalizing n i with
  | nil => cases hi
  | cons s ss ih =>
    cases i with
    | zero => rfl
    | succ i =>
      rw [startsOf, List.getElem?_cons_succ, ih _ (Nat.lt_of_succ_lt_succ hi), List.take_succ_cons,
        List.flatten_cons, List.length_append, Nat.add_assoc]

theorem slice_flatten {ss : List Bytes} {i : ℕ} {s : Bytes} (hs : ss[i]? = some s) (rest : Bytes) :
    ((ss.flatten ++ rest).drop (ss.take i).flatten.length).take
      ((ss.take (i + 1)).flatten.length - (ss.take i).flatten.length) = s := by
  obtain ⟨hi, hget⟩ := List.getElem?_eq_some_iff.mp hs
  have hnext : (ss.take (i + 1)).flatten = (ss.take i).flatten ++ s := by
    rw [List.take_succ_eq_append_getElem hi, hget, List.flatten_append, List.flatten_singleton]
  have hsplit : ss.flatten = (ss.take i).flatten ++ (s ++ (ss.drop (i + 1)).flatten) := by
    rw [← List.append_assoc, ← hnext, ← List.flatten_append, List.take_append_drop]
  rw [hsplit, hnext, List.length_append, Nat.add_sub_cancel_left, List.append_assoc, List.drop_left,
    List.append_assoc, List.take_left]

theorem slices_startsOf (before : Bytes) (ss : List Bytes) :
    List.zipWith (fun start limit => ((before ++ ss.flatten).drop start).take (limit - start))
      (startsOf before.length ss)
      (startsOf before.length ss ++ [(before ++ ss.flatten).length]).tail = ss := by
  induction ss generalizing before with
  | nil => rfl
  | cons s ss ih =>
    have hbytes : before ++ (s :: ss).flatten = before ++ s ++ ss.flatten := by
      rw [List.flatten_cons, List.append_assoc]
    have hrest := ih (before ++ s)
    have hlen : (before ++ s).length = before.length + s.length := List.length_append
    rw [hlen] at hrest
    rw [hbytes, startsOf, List.cons_append, List.tail_cons]
    cases ss with
    | nil =>
      rw [startsOf, List.nil_append, List.zipWith_cons_cons, List.zipWith_nil_left, List.flatten_nil,
        List.append_nil, List.length_append, Nat.add_sub_cancel_left, List.drop_left, List.take_length]
    | cons s' ss =>
      rw [startsOf] at hrest ⊢
      rw [List.cons_append] at hrest ⊢
      rw [List.tail_cons] at hrest
      rw [List.zipWith_cons_cons, hrest, Nat.add_sub_cancel_left, List.append_assoc, List.drop_left, List.take_left]

/-! ## Spec -/

/-- The keys of the blocks for the filter with this number. -/
def keysFor (added : List (ℕ × Bytes)) (i : ℕ) : List Bytes :=
  (added.filter fun a => a.1 / kFilterBase = i).map Prod.snd

theorem mem_keysFor {added : List (ℕ × Bytes)} {i : ℕ} {key : Bytes} :
    key ∈ keysFor added i ↔ ∃ offset, (offset, key) ∈ added ∧ offset / kFilterBase = i := by
  simp [keysFor]

theorem keysFor_append {added : List (ℕ × Bytes)} {offset : ℕ} {key : Bytes} (i : ℕ) :
    keysFor (added ++ [(offset, key)]) i = keysFor added i ++ if offset / kFilterBase = i then [key] else [] := by
  rw [keysFor, keysFor, List.filter_append, List.map_append]
  by_cases h : offset / kFilterBase = i
  · have hkeep : [(offset, key)].filter (fun a => a.1 / kFilterBase = i) = [(offset, key)] :=
      List.filter_cons_of_pos (decide_eq_true h)
    rw [if_pos h, hkeep]
    rfl
  · have hdrop : [(offset, key)].filter (fun a => a.1 / kFilterBase = i) = [] :=
      List.filter_cons_of_neg fun htrue => h (of_decide_eq_true htrue)
    rw [if_neg h, hdrop]
    rfl

/-- Keys like these match. -/
def FilterPolicy.Matches (policy : FilterPolicy) (like : Bytes → Bytes → Prop) (keys : List Bytes) (filter : Bytes) :
    Prop := ∀ key ∈ keys, ∀ key', like key' key → policy.KeyMayMatch key' filter = true

/-- The keys that were added in blocks, `i` filters being generated. -/
structure FilterBlockBuilder.Holds (b : FilterBlockBuilder) (like : Bytes → Bytes → Prop) (i : ℕ)
    (added : List (ℕ × Bytes)) : Prop where
  keys : b.keys_ = (keysFor added i).flatten
  start : b.start_ = startsOf 0 (keysFor added i)
  filters : ∃ fs : List Bytes, fs.length = i ∧ b.result_ = fs.flatten ∧ b.filter_offsets_ = startsOf 0 fs ∧
    ∀ j filter, fs[j]? = some filter → b.policy_.Matches like (keysFor added j) filter
  le : ∀ a ∈ added, a.1 / kFilterBase ≤ i

namespace FilterBlockBuilder.Holds

variable {b : FilterBlockBuilder} {like : Bytes → Bytes → Prop} {i : ℕ} {added : List (ℕ × Bytes)}

theorem new (policy : FilterPolicy) (like : Bytes → Bytes → Prop) :
    (FilterBlockBuilder.new policy).Holds like 0 [] :=
  ⟨rfl, rfl, ⟨[], rfl, rfl, rfl, fun j filter h => by cases h⟩, fun a ha => by cases ha⟩

theorem keysFor_succ (h : b.Holds like i added) : keysFor added (i + 1) = [] := by
  rw [List.eq_nil_iff_forall_not_mem]
  intro key hkey
  obtain ⟨offset, hmem, hoffset⟩ := mem_keysFor.mp hkey
  have hle := h.le _ hmem
  dsimp only at hle
  omega

theorem filters_append (h : b.Holds like i added) {filter : Bytes}
    (hmatch : b.policy_.Matches like (keysFor added i) filter) :
    ∃ fs : List Bytes, fs.length = i + 1 ∧ b.result_ ++ filter = fs.flatten ∧
      b.filter_offsets_ ++ [b.result_.length] = startsOf 0 fs ∧
      ∀ j filter, fs[j]? = some filter → b.policy_.Matches like (keysFor added j) filter := by
  obtain ⟨fs, hlen, hresult, hoffsets, hfs⟩ := h.filters
  refine ⟨fs ++ [filter], by rw [List.length_append, hlen]; rfl, ?_, ?_, fun j f hf => ?_⟩
  · rw [List.flatten_append, hresult, List.flatten_singleton]
  · rw [startsOf_append, hoffsets, hresult, Nat.zero_add]
  · rcases lt_or_ge j fs.length with hj | hj
    · rw [List.getElem?_append_left hj] at hf
      exact hfs j f hf
    · rw [List.getElem?_append_right hj] at hf
      obtain ⟨hlt, -⟩ := List.getElem?_eq_some_iff.mp hf
      rw [List.length_singleton] at hlt
      have hj : j = i := by omega
      obtain rfl := List.mem_singleton.mp (List.mem_of_getElem? hf)
      rw [hj]
      exact hmatch

theorem start_eq_nil_iff (h : b.Holds like i added) : b.start_ = [] ↔ keysFor added i = [] := by
  rw [h.start, ← List.length_eq_zero_iff, ← List.length_eq_zero_iff, length_startsOf]

theorem generateFilter (h : b.Holds like i added) (hsound : b.policy_.Sound like) :
    b.GenerateFilter.Holds like (i + 1) added ∧ b.GenerateFilter.policy_ = b.policy_ := by
  have hle : ∀ a ∈ added, a.1 / kFilterBase ≤ i + 1 := fun a ha => (h.le a ha).trans (Nat.le_succ i)
  rw [GenerateFilter]
  by_cases hnil : b.start_.length = 0
  · have hempty := h.start_eq_nil_iff.mp (List.length_eq_zero_iff.mp hnil)
    have hmatch : b.policy_.Matches like (keysFor added i) [] := fun key hkey => by
      rw [hempty] at hkey
      cases hkey
    have hfilters := h.filters_append hmatch
    rw [List.append_nil] at hfilters
    rw [if_pos hnil]
    refine ⟨⟨?_, ?_, hfilters, hle⟩, rfl⟩
    · rw [h.keysFor_succ, ← hempty]
      exact h.keys
    · rw [h.keysFor_succ, ← hempty]
      exact h.start
  · have hkeys : b.tmp_keys = keysFor added i := by
      rw [tmp_keys, h.keys, h.start]
      exact slices_startsOf [] (keysFor added i)
    obtain ⟨filter, hcreate, hmatch⟩ := hsound (keysFor added i) b.result_
    rw [if_neg hnil, hkeys, hcreate]
    refine ⟨⟨?_, ?_, h.filters_append hmatch, hle⟩, rfl⟩
    · rw [h.keysFor_succ]
      rfl
    · rw [h.keysFor_succ]
      rfl

theorem iterate (n : ℕ) (h : b.Holds like i added) (hsound : b.policy_.Sound like) :
    (GenerateFilter^[n] b).Holds like (i + n) added ∧ (GenerateFilter^[n] b).policy_ = b.policy_ := by
  induction n generalizing b i with
  | zero => exact ⟨h, rfl⟩
  | succ n ih =>
    obtain ⟨hnext, hpolicy⟩ := h.generateFilter hsound
    obtain ⟨hrest, hpolicy'⟩ := ih hnext (hpolicy ▸ hsound)
    rw [Function.iterate_succ_apply, Nat.add_comm n 1, ← Nat.add_assoc]
    exact ⟨hrest, hpolicy'.trans hpolicy⟩

theorem length_filter_offsets (h : b.Holds like i added) : b.filter_offsets_.length = i := by
  obtain ⟨fs, hlen, -, hoffsets, -⟩ := h.filters
  rw [hoffsets, length_startsOf, hlen]

theorem startBlock (h : b.Holds like i added) (hsound : b.policy_.Sound like) {block_offset : ℕ}
    (hle : i ≤ block_offset / kFilterBase) :
    (b.StartBlock block_offset).Holds like (block_offset / kFilterBase) added ∧
      (b.StartBlock block_offset).policy_ = b.policy_ := by
  have hiterate := h.iterate (block_offset / kFilterBase - i) hsound
  rw [Nat.add_sub_cancel' hle] at hiterate
  rw [StartBlock, h.length_filter_offsets]
  exact hiterate

theorem addKey {block_offset : ℕ} (h : b.Holds like (block_offset / kFilterBase) added) (key : Bytes) :
    (b.AddKey key).Holds like (block_offset / kFilterBase) (added ++ [(block_offset, key)]) := by
  have hkeys := @keysFor_append added block_offset key
  obtain ⟨fs, hlen, hresult, hoffsets, hfs⟩ := h.filters
  refine ⟨?_, ?_, ⟨fs, hlen, hresult, hoffsets, fun j filter hj => ?_⟩, fun a ha => ?_⟩
  · rw [hkeys, if_pos rfl, List.flatten_append, List.flatten_singleton, ← h.keys]
    rfl
  · rw [hkeys, if_pos rfl, startsOf_append, ← h.start, ← h.keys, Nat.zero_add]
    rfl
  · have hj' : ¬ block_offset / kFilterBase = j := by
      have hlt := (List.getElem?_eq_some_iff.mp hj).1
      omega
    rw [hkeys, if_neg hj', List.append_nil]
    exact hfs j filter hj
  · rcases List.mem_append.mp ha with ha | ha
    · exact h.le a ha
    · obtain rfl := List.mem_singleton.mp ha
      exact le_rfl

theorem addKeys {block_offset : ℕ} (h : b.Holds like (block_offset / kFilterBase) added) (keys : List Bytes) :
    (keys.foldl AddKey b).Holds like (block_offset / kFilterBase)
      (added ++ keys.map fun key => (block_offset, key)) ∧ (keys.foldl AddKey b).policy_ = b.policy_ := by
  induction keys generalizing b added with
  | nil =>
    rw [List.map_nil, List.append_nil]
    exact ⟨h, rfl⟩
  | cons key keys ih =>
    obtain ⟨hrest, hpolicy⟩ := ih (h.addKey key)
    rw [List.append_assoc] at hrest
    exact ⟨hrest, hpolicy⟩

end FilterBlockBuilder.Holds

/-! ## Reader -/

/-- The bytes of a filter block. -/
def filterContents (fs : List Bytes) : Bytes :=
  fs.flatten ++ (fixed32s (startsOf 0 fs) ++ (EncodeFixed32 (UInt32.ofNat fs.flatten.length) ++ [11]))

theorem FilterBlockBuilder.Holds.finish {b : FilterBlockBuilder} {like : Bytes → Bytes → Prop} {i : ℕ}
    {added : List (ℕ × Bytes)} (h : b.Holds like i added) (hsound : b.policy_.Sound like) :
    ∃ fs, b.Finish = filterContents fs ∧
      ∀ j filter, fs[j]? = some filter → b.policy_.Matches like (keysFor added j) filter := by
  rw [Finish]
  by_cases hnil : b.start_ = []
  · obtain ⟨fs, -, hresult, hoffsets, hfs⟩ := h.filters
    refine ⟨fs, ?_, hfs⟩
    rw [if_pos hnil, hresult, hoffsets]
    rfl
  · obtain ⟨hnext, hpolicy⟩ := h.generateFilter hsound
    obtain ⟨fs, -, hresult, hoffsets, hfs⟩ := hnext.filters
    rw [hpolicy] at hfs
    refine ⟨fs, ?_, hfs⟩
    rw [if_neg hnil, hresult, hoffsets]
    rfl

section Reader

variable {fs : List Bytes}

theorem length_filterContents (fs : List Bytes) :
    (filterContents fs).length = fs.flatten.length + fs.length * 4 + 5 := by
  rw [filterContents, List.length_append, List.length_append, List.length_append, length_fixed32s, length_startsOf,
    length_encodeFixed32, List.length_singleton]
  omega

theorem filterContents_eq (fs : List Bytes) :
    filterContents fs = fs.flatten ++ (fixed32s (startsOf 0 (fs ++ [[]])) ++ [11]) := by
  have hlast : fixed32s (startsOf 0 (fs ++ [[]])) =
      fixed32s (startsOf 0 fs) ++ EncodeFixed32 (UInt32.ofNat fs.flatten.length) := by
    rw [startsOf_append, Nat.zero_add, fixed32s, fixed32s, List.flatMap_append, List.flatMap_singleton]
  rw [filterContents, hlast, List.append_assoc]

theorem newReader (policy : FilterPolicy) (hsize : (filterContents fs).length < 2 ^ 32) :
    FilterBlockReader.new policy (filterContents fs) =
      ⟨policy, filterContents fs, fs.flatten.length, fs.length, 11⟩ := by
  have hlen := length_filterContents fs
  have hbytes : filterContents fs = fs.flatten ++ fixed32s (startsOf 0 fs) ++
      (EncodeFixed32 (UInt32.ofNat fs.flatten.length) ++ [11]) := by rw [filterContents, List.append_assoc]
  have hfront : (fs.flatten ++ fixed32s (startsOf 0 fs)).length = (filterContents fs).length - 5 := by
    rw [List.length_append, length_fixed32s, length_startsOf, hlen]
    omega
  have hlg : ((filterContents fs).getD ((filterContents fs).length - 1) 0).val = 11 := by
    have hlast : filterContents fs = fs.flatten ++ fixed32s (startsOf 0 fs) ++
        EncodeFixed32 (UInt32.ofNat fs.flatten.length) ++ [11] := by
      rw [hbytes]
      simp only [List.append_assoc]
    rw [hlast, List.length_append, List.length_singleton, Nat.add_sub_cancel, List.getD_append_right _ _ _ _ le_rfl,
      Nat.sub_self]
    rfl
  have hword : (DecodeFixed32 ((filterContents fs).drop ((filterContents fs).length - 5))).toNat =
      fs.flatten.length := by
    rw [← hfront, hbytes, List.drop_left, decodeFixed32_encodeFixed32, UInt32.toNat_ofNat',
      Nat.mod_eq_of_lt (by omega)]
  rw [FilterBlockReader.new]
  dsimp only
  rw [if_neg (by omega), hlg, hword, if_neg (by omega)]
  congr 1
  omega

theorem keyMayMatch_of_filter (policy : FilterPolicy) (hsize : (filterContents fs).length < 2 ^ 32)
    {offset : ℕ} {key : Bytes}
    (h : ∀ filter, fs[offset / kFilterBase]? = some filter → policy.KeyMayMatch key filter = true) :
    (FilterBlockReader.new policy (filterContents fs)).KeyMayMatch offset key = true := by
  rw [newReader policy hsize, FilterBlockReader.KeyMayMatch]
  dsimp only
  have hindex : offset >>> 11 = offset / kFilterBase := Nat.shiftRight_eq_div_pow offset 11
  rw [hindex]
  generalize offset / kFilterBase = i at h ⊢
  by_cases hi : i < fs.length
  · have hlen := length_filterContents fs
    have hle : ∀ j, (fs.take j).flatten.length ≤ fs.flatten.length := fun j => by
      nth_rewrite 2 [← List.take_append_drop j fs]
      rw [List.flatten_append, List.length_append]
      exact Nat.le_add_right _ _
    have hoffset : ∀ j, j ≤ fs.length →
        (DecodeFixed32 ((filterContents fs).drop (fs.flatten.length + j * 4))).toNat =
        (fs.take j).flatten.length := fun j hj => by
      have hlt : j < (fs ++ [[]]).length := by
        rw [List.length_append, List.length_singleton]
        exact Nat.lt_succ_of_le hj
      have hget := getElem?_startsOf 0 hlt
      rw [List.take_append_of_le_length hj, Nat.zero_add] at hget
      rw [filterContents_eq]
      exact decodeFixed32_fixed32s fs.flatten hget (by have := hle j; omega) [11]
    have hnext : fs.flatten.length + i * 4 + 4 = fs.flatten.length + (i + 1) * 4 := by omega
    have hfilter : fs[i]? = some fs[i] := List.getElem?_eq_getElem hi
    have hslice := slice_flatten hfilter
      (fixed32s (startsOf 0 fs) ++ (EncodeFixed32 (UInt32.ofNat fs.flatten.length) ++ [11]))
    have hmono : (fs.take i).flatten.length ≤ (fs.take (i + 1)).flatten.length := by
      rw [List.take_succ_eq_append_getElem hi, List.flatten_append, List.length_append]
      exact Nat.le_add_right _ _
    rw [if_pos hi, hnext, hoffset i hi.le, hoffset (i + 1) hi, if_pos ⟨hmono, hle (i + 1)⟩, filterContents, hslice]
    exact h _ hfilter
  · rw [if_neg hi]

end Reader

/-- **A key matches at the offset of its block.** -/
theorem FilterBlockBuilder.Holds.keyMayMatch {b : FilterBlockBuilder} {like : Bytes → Bytes → Prop} {i : ℕ}
    {added : List (ℕ × Bytes)} (h : b.Holds like i added) (hsound : b.policy_.Sound like)
    (hsize : b.Finish.length < 2 ^ 32) {offset : ℕ} {key key' : Bytes} (hmem : (offset, key) ∈ added)
    (hlike : like key' key) : (FilterBlockReader.new b.policy_ b.Finish).KeyMayMatch offset key' = true := by
  obtain ⟨fs, hfinish, hfs⟩ := h.finish hsound
  rw [hfinish] at hsize ⊢
  exact keyMayMatch_of_filter b.policy_ hsize fun filter hfilter =>
    hfs _ filter hfilter key (mem_keysFor.mpr ⟨offset, hmem, rfl⟩) key' hlike

/-! ## Tables -/

/-- The calls of a `TableBuilder`: each block is started, and its keys are added. -/
def addBlocks (b : FilterBlockBuilder) (blocks : List (ℕ × List Bytes)) : FilterBlockBuilder :=
  blocks.foldl (fun b block => block.2.foldl FilterBlockBuilder.AddKey (b.StartBlock block.1)) b

/-- The keys of blocks, with the offsets of these. -/
def keysOfBlocks (blocks : List (ℕ × List Bytes)) : List (ℕ × Bytes) :=
  blocks.flatMap fun block => block.2.map fun key => (block.1, key)

theorem FilterBlockBuilder.Holds.addBlocks {b : FilterBlockBuilder} {like : Bytes → Bytes → Prop} {i : ℕ}
    {added : List (ℕ × Bytes)} (h : b.Holds like i added) (hsound : b.policy_.Sound like)
    {blocks : List (ℕ × List Bytes)} (hasc : (blocks.map Prod.fst).Pairwise (· ≤ ·))
    (hle : ∀ block ∈ blocks, i ≤ block.1 / kFilterBase) :
    ∃ j, (Leveldb.addBlocks b blocks).Holds like j (added ++ keysOfBlocks blocks) ∧
      (Leveldb.addBlocks b blocks).policy_ = b.policy_ := by
  induction blocks generalizing b i added with
  | nil =>
    refine ⟨i, ?_, rfl⟩
    rw [keysOfBlocks, List.flatMap_nil, List.append_nil]
    exact h
  | cons block blocks ih =>
    obtain ⟨hfirst, hasc⟩ := List.pairwise_cons.mp hasc
    obtain ⟨hstart, hpolicy⟩ := h.startBlock hsound (hle block List.mem_cons_self)
    obtain ⟨hkeys, hpolicy'⟩ := hstart.addKeys block.2
    have hsame := hpolicy'.trans hpolicy
    obtain ⟨j, hrest, hpolicy''⟩ := ih hkeys (hsame ▸ hsound) hasc fun block' hblock' =>
      Nat.div_le_div_right (hfirst _ (List.mem_map_of_mem hblock'))
    rw [List.append_assoc] at hrest
    exact ⟨j, hrest, hpolicy''.trans hsame⟩

/-- **The filter block of a table excludes no key that a block has**, nor any other version of its user key. -/
theorem keyMayMatch_of_added (bloom : BloomFilterPolicy) (Name : Bytes) {blocks : List (ℕ × List Bytes)}
    (hasc : (blocks.map Prod.fst).Pairwise (· ≤ ·))
    (hsize : (addBlocks (.new (InternalFilterPolicy (bloom.policy Name))) blocks).Finish.length < 2 ^ 32)
    {block : ℕ × List Bytes} (hblock : block ∈ blocks) {key key' : Bytes} (hkey : key ∈ block.2)
    (huser : ExtractUserKey key' = ExtractUserKey key) :
    (FilterBlockReader.new (InternalFilterPolicy (bloom.policy Name))
      (addBlocks (.new (InternalFilterPolicy (bloom.policy Name))) blocks).Finish).KeyMayMatch block.1 key' =
        true := by
  have hsound := InternalFilterPolicy.sound (bloom.sound Name)
  obtain ⟨j, hholds, hpolicy⟩ :=
    (FilterBlockBuilder.Holds.new (InternalFilterPolicy (bloom.policy Name)) _).addBlocks
    hsound hasc fun block _ => Nat.zero_le _
  have hmem : (block.1, key) ∈ [] ++ keysOfBlocks blocks :=
    List.mem_flatMap.mpr ⟨block, hblock, List.mem_map_of_mem hkey⟩
  have hmatch := hholds.keyMayMatch (hpolicy ▸ hsound) hsize hmem huser
  rwa [hpolicy] at hmatch

/-- `NewBloomFilterPolicy(10)`. -/
def tenBitsPerKey : BloomFilterPolicy := ⟨10, 6, by decide, by decide⟩

theorem keyMayMatch_of_added_two :
    (FilterBlockReader.new (InternalFilterPolicy (tenBitsPerKey.policy [])) (addBlocks
      (.new (InternalFilterPolicy (tenBitsPerKey.policy []))) [(0, [[5, 1, 0, 0, 0, 0, 0, 0, 0]]),
        (5000, [[7, 1, 3, 0, 0, 0, 0, 0, 0], [8, 1, 2, 0, 0, 0, 0, 0, 0]])]).Finish).KeyMayMatch 5000
      [7, 1, 9, 0, 0, 0, 0, 0, 0] = true := by
  have hblock : (5000, [[7, 1, 3, 0, 0, 0, 0, 0, 0], [8, 1, 2, 0, 0, 0, 0, 0, 0]]) ∈
      [(0, [[5, 1, 0, 0, 0, 0, 0, 0, 0]]),
        (5000, ([[7, 1, 3, 0, 0, 0, 0, 0, 0], [8, 1, 2, 0, 0, 0, 0, 0, 0]] : List Bytes))] :=
    List.mem_cons_of_mem _ List.mem_cons_self
  exact keyMayMatch_of_added tenBitsPerKey [] (by decide) (by decide +kernel) hblock List.mem_cons_self rfl

end Inery.Leveldb
