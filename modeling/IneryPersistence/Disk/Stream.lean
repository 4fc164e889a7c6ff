import IneryPersistence.Db.Containers
import IneryPersistence.Undo.Execute
import IneryPersistence.Block.Header

/-!
# Vectors, maps, undo records and blocks in a stream

* `ReadsBack`: a value that is read back off the front of what follows it;
* `writeVector`, `readVector`, `insertEntries`: a `std::vector`, and a `std::map` as the vector of its entries;
* `IneryTxUndo`, `IneryBlockUndo`, `IneryBlock` in a stream;
* **`IneryBlockUndo.readsBack`**, **`IneryBlock.readsBack`**: both are read back.
-/

namespace Inery

open KV

/-- The value is read back, and what follows it is left. -/
def ReadsBack {α : Type} [Serial α] (a : α) : Prop := ∀ rest, unser (ser a ++ rest) = some (a, rest)

theorem readsBack {α : Type} [Serial α] [StreamSerial α] (a : α) : ReadsBack a :=
  StreamSerial.unser_append a

/-! ## Vectors -/

section Vector

variable [CompactSize] {α : Type} [Serial α]

/-- A `std::vector`: the number of its elements, and the elements. -/
def writeVector (l : List α) : Bytes := CompactSize.write l.length ++ serList l

def readVector (bytes : Bytes) : Option (List α × Bytes) :=
  (CompactSize.read bytes).bind fun n => unserList n.1 n.2

omit [CompactSize] in
theorem unserList_readsBack {l : List α} (h : ∀ a ∈ l, ReadsBack a) (rest : Bytes) :
    unserList l.length (serList l ++ rest) = some (l, rest) := by
  induction l with
  | nil => rfl
  | cons a l ih =>
    unfold serList at ih ⊢
    rw [List.length_cons, List.flatMap_cons, List.append_assoc, unserList, h a List.mem_cons_self,
      Option.bind_some, ih fun b hb => h b (List.mem_cons_of_mem _ hb), Option.map_some]

theorem readVector_writeVector [LawfulCompactSize] {l : List α} (h : ∀ a ∈ l, ReadsBack a) (rest : Bytes) :
    readVector (writeVector l ++ rest) = some (l, rest) := by
  rw [readVector, writeVector, List.append_assoc, LawfulCompactSize.read_write, Option.bind_some,
    unserList_readsBack h]

end Vector

/-! ## Maps -/

section Map

variable {K V : Type} [LinearOrder K]

/-- The entries of a `std::map`, each inserted unless its key is there. -/
def insertEntries (l : List (K × V)) (m : SortedMap K V) : SortedMap K V :=
  l.foldl (fun m e => if (m.find? e.1).isSome then m else m.insert e.1 e.2) m

theorem find?_insertEntries {l : List (K × V)} (hl : (l.map Prod.fst).Nodup) {m : SortedMap K V}
    (hm : ∀ e ∈ l, m.find? e.1 = none) (k : K) :
    (insertEntries l m).find? k = (lookup k l).or (m.find? k) := by
  induction l generalizing m with
  | nil => rfl
  | cons e l ih =>
    obtain ⟨hnot, hl⟩ := List.nodup_cons.mp hl
    have hrest : ∀ e' ∈ l, (m.insert e.1 e.2).find? e'.1 = none := by
      intro e' he'
      have hne : e'.1 ≠ e.1 := fun h => hnot (h ▸ List.mem_map_of_mem he')
      rw [SortedMap.find?_insert_of_ne _ hne]
      exact hm e' (List.mem_cons_of_mem _ he')
    have hstep : insertEntries (e :: l) m = insertEntries l (m.insert e.1 e.2) := by
      rw [insertEntries, List.foldl_cons, hm e List.mem_cons_self]
      rfl
    rw [hstep, ih hl hrest, lookup_cons, SortedMap.find?_insert]
    by_cases hk : k = e.1
    · subst hk
      have hnone : lookup e.1 l = none := lookup_eq_none fun e' he' h => hnot (h ▸ List.mem_map_of_mem he')
      rw [if_pos rfl, if_pos rfl, hnone]
      rfl
    · rw [if_neg hk, if_neg hk]

theorem insertEntries_entries (m : SortedMap K V) : insertEntries m.entries ∅ = m := by
  refine SortedMap.ext_find? fun k => ?_
  rw [find?_insertEntries m.ascending.nodup_keys fun _ _ => rfl, SortedMap.find?_empty, Option.or_none]
  rfl

end Map

/-! ## Undo records -/

section Undo

variable [CompactSize]

instance : Serial CDbOpLog where
  ser l := ser l.key ++ ser l.value
  unser bytes := (unser (α := Bytes) bytes).bind fun key =>
    (unser (α := Bytes) key.2).map fun value => (⟨key.1, value.1⟩, value.2)

instance [LawfulCompactSize] : StreamSerial CDbOpLog where
  unser_append l rest := by
    change (unser (α := Bytes) ((ser l.key ++ ser l.value) ++ rest)).bind _ = _
    rw [List.append_assoc, StreamSerial.unser_append, Option.bind_some, StreamSerial.unser_append]
    rfl

/-- An entry of `mapDbOpLogs`. -/
instance : Serial (Bytes × List CDbOpLog) where
  ser e := ser e.1 ++ writeVector e.2
  unser bytes := (unser (α := Bytes) bytes).bind fun key =>
    (readVector key.2).map fun logs => ((key.1, logs.1), logs.2)

instance [LawfulCompactSize] : StreamSerial (Bytes × List CDbOpLog) where
  unser_append e rest := by
    change (unser (α := Bytes) ((ser e.1 ++ writeVector e.2) ++ rest)).bind _ = _
    rw [List.append_assoc, StreamSerial.unser_append, Option.bind_some,
      readVector_writeVector fun a _ => readsBack a]
    rfl

/-- `CDBOpLogMap`: its entries in ascending order. -/
instance : Serial CDBOpLogMap where
  ser m := writeVector m.entries
  unser bytes := (readVector bytes).map fun l => (insertEntries l.1 ∅, l.2)

instance [LawfulCompactSize] : StreamSerial CDBOpLogMap where
  unser_append m rest := by
    change (readVector (writeVector m.entries ++ rest)).map _ = _
    rw [readVector_writeVector fun a _ => readsBack a, Option.map_some, insertEntries_entries]

/-- The 32 bytes of a `uint256`. -/
def readUint256 (bytes : Bytes) : Option (Bytes × Bytes) :=
  if 32 ≤ bytes.length then some (bytes.take 32, bytes.drop 32) else none

omit [CompactSize] in
theorem readUint256_append {txid : Bytes} (h : txid.length = 32) (rest : Bytes) :
    readUint256 (txid ++ rest) = some (txid, rest) := by
  rw [readUint256, if_pos (by rw [List.length_append]; omega), List.take_left' h, List.drop_left' h]

instance : Serial IneryTxUndo where
  ser u := u.txid ++ ser u.dbOpLogMap
  unser bytes := (readUint256 bytes).bind fun txid =>
    (unser (α := CDBOpLogMap) txid.2).map fun m => (⟨txid.1, m.1⟩, m.2)

theorem IneryTxUndo.readsBack [LawfulCompactSize] {u : IneryTxUndo} (h : u.txid.length = 32) : ReadsBack u := by
  intro rest
  change (readUint256 ((u.txid ++ ser u.dbOpLogMap) ++ rest)).bind _ = _
  rw [List.append_assoc, readUint256_append h, Option.bind_some, StreamSerial.unser_append]
  rfl

/-- `IneryBlockUndo`. -/
instance : Serial IneryBlockUndo where
  ser := writeVector
  unser := readVector

/-- The ids of the transactions are `uint256`s. -/
def IneryBlockUndo.TxIds (blockUndo : IneryBlockUndo) : Prop := ∀ u ∈ blockUndo, u.txid.length = 32

/-- **The undo records of a block** are read back. -/
theorem IneryBlockUndo.readsBack [LawfulCompactSize] {blockUndo : IneryBlockUndo} (h : blockUndo.TxIds) :
    ReadsBack blockUndo :=
  readVector_writeVector fun u hu => IneryTxUndo.readsBack (h u hu)

end Undo

/-! ## Blocks -/

section Block

variable [CompactSize] [Serial Int32] [Serial UInt32] [Serial UInt64] [Serial Uint256]

/-- All the members of a header. -/
def IneryBlockHeader.write (header : IneryBlockHeader) : Bytes :=
  ser header.nVersion ++ (ser header.prevBlockHash ++ (ser header.merkleRootHash ++ (ser header.nTime ++
    (ser header.nNonce ++ (ser header.height ++ (ser header.nFuelFee ++ (ser header.nFuelRate ++
    ser header.vSignature)))))))

instance : Serial IneryBlockHeader where
  ser := IneryBlockHeader.write
  unser bytes := do
    let (nVersion, bytes) ← unser (α := Int32) bytes
    let (prevBlockHash, bytes) ← unser (α := Uint256) bytes
    let (merkleRootHash, bytes) ← unser (α := Uint256) bytes
    let (nTime, bytes) ← unser (α := UInt32) bytes
    let (nNonce, bytes) ← unser (α := UInt32) bytes
    let (height, bytes) ← unser (α := UInt32) bytes
    let (nFuelFee, bytes) ← unser (α := UInt64) bytes
    let (nFuelRate, bytes) ← unser (α := UInt32) bytes
    let (vSignature, bytes) ← unser (α := Bytes) bytes
    return (⟨nVersion, prevBlockHash, merkleRootHash, nTime, nNonce, height, nFuelFee, nFuelRate, vSignature⟩,
      bytes)

instance [LawfulCompactSize] [StreamSerial Int32] [StreamSerial UInt32] [StreamSerial UInt64]
    [StreamSerial Uint256] : StreamSerial IneryBlockHeader where
  unser_append header rest := by
    change unser (header.write ++ rest) = _
    rw [IneryBlockHeader.write]
    simp only [List.append_assoc]
    iterate 9 refine bind_eq_of_eq_some (StreamSerial.unser_append _ _) ?_
    rfl

variable {Tx : Type} [Serial Tx]

instance : Serial (IneryBlock Tx) where
  ser block := ser block.toIneryBlockHeader ++ writeVector block.vptx
  unser bytes := (unser (α := IneryBlockHeader) bytes).bind fun header =>
    (readVector header.2).map fun vptx => ({ header.1 with vptx := vptx.1 }, vptx.2)

/-- **A block** is read back, when its transactions are. -/
theorem IneryBlock.readsBack [LawfulCompactSize] [StreamSerial Int32] [StreamSerial UInt32] [StreamSerial UInt64]
    [StreamSerial Uint256] {block : IneryBlock Tx} (h : ∀ tx ∈ block.vptx, ReadsBack tx) : ReadsBack block := by
  intro rest
  change (unser (α := IneryBlockHeader) ((ser block.toIneryBlockHeader ++ writeVector block.vptx) ++ rest)).bind _
    = _
  rw [List.append_assoc, StreamSerial.unser_append, Option.bind_some, readVector_writeVector h]
  rfl

end Block

end Inery
