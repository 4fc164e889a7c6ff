import IneryPersistence.Lib.Runs
import IneryPersistence.Block.Header

/-!
# The cache of transaction ids

`IneryTxMemCache` marks an id as present or as removed, and hides the marks of its base.

* `addBlockTx`, `removeBlockTx`, `hasTx`, `batchWrite`, `flush`: the code, on a stack of caches;
* `overlay`, `txSet`: the set a level stands for;
* `txSet_addBlockTx`, `txSet_removeBlockTx`, `txSet_batchWrite`: what the operations do to it;
* `TxEdit`, `setAt`: the same history as edits of plain sets;
* **`Represents`**, `Represents.apply`: the relation that every operation keeps;
* **`tx_stack_refines_set`**: the state that a run reaches, level by level.
-/

namespace Inery

open KV

/-- `TxIdMap`, whose order plays no part. -/
abbrev TxIdMap := SortedMap Uint256 Bool

/-- A cache followed by the caches under it, down to the root, which has no base. -/
abbrev TxMemStack := List TxIdMap

namespace TxMemStack

section Model

variable {Tx : Type} (getHash : Tx → Uint256)

/-- `AddBlockTx`. -/
def addBlockTx (block : IneryBlock Tx) : TxMemStack → TxMemStack
  | [] => []
  | txids :: pBase => block.vptx.foldl (fun txids ptx => txids.insert (getHash ptx) true) txids :: pBase

/-- `RemoveBlockTx`: the root forgets the ids, a cache above it marks them as removed. -/
def removeBlockTx (block : IneryBlock Tx) : TxMemStack → TxMemStack
  | [] => []
  | [txids] => [block.vptx.foldl (fun txids ptx => txids.erase (getHash ptx)) txids]
  | txids :: pBase => block.vptx.foldl (fun txids ptx => txids.insert (getHash ptx) false) txids :: pBase

/-- `HasTx`. -/
def hasTx : TxMemStack → Uint256 → Bool
  | [], _ => false
  | txids :: pBase, txid => (txids.find? txid).getD (hasTx pBase txid)

/-- `BatchWrite`: only the root drops the marks of removed ids. -/
def batchWrite (txidsIn : TxIdMap) : TxMemStack → TxMemStack
  | [] => []
  | [txids] => [txidsIn.entries.foldl
      (fun txids item => if item.2 then txids.insert item.1 item.2 else txids.erase item.1) txids]
  | txids :: pBase => txidsIn.entries.foldl (fun txids item => txids.insert item.1 item.2) txids :: pBase

/-- `Flush`; `none` at the root, where the assertion on the base stops the program. -/
def flush : TxMemStack → Option TxMemStack
  | txids :: b :: bs => some (∅ :: batchWrite txids (b :: bs))
  | _ => none

/-- `Clear`. -/
def clear : TxMemStack → TxMemStack
  | [] => []
  | _ :: pBase => ∅ :: pBase

end Model

/-! ## The set of a level -/

/-- The marks of a cache over the set of its base. -/
def overlay (txids : TxIdMap) (S : Set Uint256) : Set Uint256 :=
  {t | (txids.find? t).elim (t ∈ S) fun existed => existed = true}

/-- The set a level stands for. -/
def txSet (s : TxMemStack) : Set Uint256 := {t | hasTx s t = true}

/-- The ids of a block. -/
def txidsOf {Tx : Type} (getHash : Tx → Uint256) (block : IneryBlock Tx) : Set Uint256 :=
  {t | t ∈ block.vptx.map getHash}

@[simp] theorem txSet_nil : txSet [] = ∅ := Set.eq_empty_of_forall_notMem fun _ h => Bool.noConfusion h

theorem txSet_cons (txids : TxIdMap) (s : TxMemStack) : txSet (txids :: s) = overlay txids (txSet s) := by
  ext t
  show (txids.find? t).getD (hasTx s t) = true ↔ (txids.find? t).elim (hasTx s t = true) _
  cases txids.find? t <;> rfl

@[simp] theorem overlay_empty (S : Set Uint256) : overlay ∅ S = S := rfl

section Spec

variable {Tx : Type} (getHash : Tx → Uint256) (block : IneryBlock Tx)

theorem overlay_foldl_add (txids : TxIdMap) (S : Set Uint256) :
    overlay (block.vptx.foldl (fun txids ptx => txids.insert (getHash ptx) true) txids) S =
      overlay txids S ∪ txidsOf getHash block := by
  ext t
  show ((_ : TxIdMap).find? t).elim _ _ ↔ (txids.find? t).elim _ _ ∨ t ∈ block.vptx.map getHash
  rw [SortedMap.find?_foldl_insert_const]
  by_cases ht : t ∈ block.vptx.map getHash
  · rw [if_pos ht]
    exact iff_of_true rfl (.inr ht)
  · rw [if_neg ht, or_iff_left ht]

theorem overlay_foldl_remove (txids : TxIdMap) (S : Set Uint256) :
    overlay (block.vptx.foldl (fun txids ptx => txids.insert (getHash ptx) false) txids) S =
      overlay txids S \ txidsOf getHash block := by
  ext t
  show ((_ : TxIdMap).find? t).elim _ _ ↔ (txids.find? t).elim _ _ ∧ ¬ t ∈ block.vptx.map getHash
  rw [SortedMap.find?_foldl_insert_const]
  by_cases ht : t ∈ block.vptx.map getHash
  · rw [if_pos ht]
    exact iff_of_false (fun h => Bool.noConfusion h) fun h => h.2 ht
  · rw [if_neg ht, and_iff_left ht]

theorem overlay_foldl_erase (txids : TxIdMap) :
    overlay (block.vptx.foldl (fun txids ptx => txids.erase (getHash ptx)) txids) ∅ =
      overlay txids ∅ \ txidsOf getHash block := by
  ext t
  show ((_ : TxIdMap).find? t).elim _ _ ↔ (txids.find? t).elim _ _ ∧ ¬ t ∈ block.vptx.map getHash
  rw [SortedMap.find?_foldl_erase]
  by_cases ht : t ∈ block.vptx.map getHash
  · rw [if_pos ht]
    exact iff_of_false (fun h => h) fun h => h.2 ht
  · rw [if_neg ht, and_iff_left ht]

theorem overlay_foldl_insert (txidsIn txids : TxIdMap) (S : Set Uint256) :
    overlay (txidsIn.entries.foldl (fun txids item => txids.insert item.1 item.2) txids) S =
      overlay txidsIn (overlay txids S) := by
  ext t
  show ((_ : TxIdMap).find? t).elim _ _ ↔ (txidsIn.find? t).elim ((txids.find? t).elim _ _) _
  rw [SortedMap.find?_foldl_insert txidsIn.ascending]
  show ((txidsIn.find? t).or _).elim _ _ ↔ _
  cases txidsIn.find? t <;> rfl

theorem find?_batchWrite_root (txidsIn txids : TxIdMap) (t : Uint256) :
    (txidsIn.entries.foldl (fun txids item =>
      if item.2 then txids.insert item.1 item.2 else txids.erase item.1) txids).find? t =
        (txidsIn.find? t).elim (txids.find? t) fun existed => if existed then some true else none := by
  refine SortedMap.slot_foldl _ SortedMap.find? (fun _ existed => if existed then some true else none)
    (fun m e => ?_) (fun m e k hk => ?_) txidsIn.ascending txids t
  · obtain ⟨k, _ | _⟩ := e
    · simp [SortedMap.find?_erase]
    · simp
  · obtain ⟨k', _ | _⟩ := e
    · simpa [SortedMap.find?_erase] using fun h : k = k' => absurd h hk
    · simpa using SortedMap.find?_insert_of_ne m hk true

theorem overlay_batchWrite_root (txidsIn txids : TxIdMap) :
    overlay (txidsIn.entries.foldl (fun txids item =>
      if item.2 then txids.insert item.1 item.2 else txids.erase item.1) txids) ∅ =
        overlay txidsIn (overlay txids ∅) := by
  ext t
  show ((_ : TxIdMap).find? t).elim _ _ ↔ (txidsIn.find? t).elim ((txids.find? t).elim _ _) _
  rw [find?_batchWrite_root]
  rcases txidsIn.find? t with _ | _ | _
  · rfl
  · exact iff_of_false (fun h => h) fun h => Bool.noConfusion h
  · rfl

/-! ## What an operation does to the sets -/

theorem txSet_addBlockTx (c : TxIdMap) (bs : TxMemStack) :
    txSet (addBlockTx getHash block (c :: bs)) = txSet (c :: bs) ∪ txidsOf getHash block := by
  rw [addBlockTx, txSet_cons, txSet_cons, overlay_foldl_add]

theorem txSet_removeBlockTx (c : TxIdMap) (bs : TxMemStack) :
    txSet (removeBlockTx getHash block (c :: bs)) = txSet (c :: bs) \ txidsOf getHash block := by
  cases bs with
  | nil => rw [removeBlockTx, txSet_cons, txSet_cons, txSet_nil, overlay_foldl_erase]
  | cons b bs =>
    rw [removeBlockTx, txSet_cons, txSet_cons c (b :: bs), overlay_foldl_remove]
    exact fun h => List.cons_ne_nil b bs h

/-- **A base that takes in a cache has the set of that cache.** -/
theorem txSet_batchWrite (txidsIn b : TxIdMap) (bs : TxMemStack) :
    txSet (batchWrite txidsIn (b :: bs)) = txSet (txidsIn :: b :: bs) := by
  rw [txSet_cons txidsIn, txSet_cons b]
  cases bs with
  | nil => rw [batchWrite, txSet_cons, txSet_nil, overlay_batchWrite_root]
  | cons b' bs =>
    rw [batchWrite, txSet_cons, overlay_foldl_insert]
    exact fun h => List.cons_ne_nil b' bs h

theorem tail_addBlockTx (c : TxIdMap) (bs : TxMemStack) :
    (addBlockTx getHash block (c :: bs)).tail = bs := rfl

theorem tail_removeBlockTx (c : TxIdMap) (bs : TxMemStack) :
    (removeBlockTx getHash block (c :: bs)).tail = bs := by
  cases bs <;> rfl

theorem tail_batchWrite (txidsIn b : TxIdMap) (bs : TxMemStack) :
    (batchWrite txidsIn (b :: bs)).tail = bs := by
  cases bs <;> rfl

/-- The operations at the cache `c` over `bs` act on the set of its level: additions and removals leave
the levels below as they are, and a flush hands the set to the base. -/
structure RefinesTxSet (c : TxIdMap) (bs : TxMemStack) : Prop where
  addBlockTx : ∀ block : IneryBlock Tx,
    txSet (addBlockTx getHash block (c :: bs)) = txSet (c :: bs) ∪ txidsOf getHash block ∧
      (TxMemStack.addBlockTx getHash block (c :: bs)).tail = bs
  removeBlockTx : ∀ block : IneryBlock Tx,
    txSet (removeBlockTx getHash block (c :: bs)) = txSet (c :: bs) \ txidsOf getHash block ∧
      (TxMemStack.removeBlockTx getHash block (c :: bs)).tail = bs
  flush : bs ≠ [] → ∃ s, flush (c :: bs) = some (∅ :: s) ∧ txSet (∅ :: s) = txSet (c :: bs) ∧
    txSet s = txSet (c :: bs) ∧ s.tail = bs.tail

theorem refinesTxSet (c : TxIdMap) (bs : TxMemStack) : RefinesTxSet getHash c bs where
  addBlockTx block := ⟨txSet_addBlockTx getHash block c bs, tail_addBlockTx getHash block c bs⟩
  removeBlockTx block := ⟨txSet_removeBlockTx getHash block c bs, tail_removeBlockTx getHash block c bs⟩
  flush hbs := by
    obtain ⟨b, bs, rfl⟩ := List.exists_cons_of_ne_nil hbs
    refine ⟨_, rfl, ?_, txSet_batchWrite c b bs, tail_batchWrite c b bs⟩
    rw [txSet_cons, overlay_empty, txSet_batchWrite]

end Spec

end TxMemStack

/-! ## Edits of plain sets -/

/-- What a block does to a set of transaction ids. -/
inductive TxEdit
  | add (txids : Set Uint256)
  | remove (txids : Set Uint256)

def TxEdit.apply (S : Set Uint256) : TxEdit → Set Uint256
  | add txids => S ∪ txids
  | remove txids => S \ txids

/-- The edits of every level since its last flush, down to the root. -/
abbrev TxEditStack := List (List TxEdit)

/-- The set of a level: its edits on a copy of the set of its base. -/
def TxEditStack.setAt : TxEditStack → Set Uint256
  | [] => ∅
  | edits :: pBase => edits.foldl TxEdit.apply (setAt pBase)

/-- The operations of a cache that may change it. -/
inductive TxMemOp (Tx : Type)
  | addBlockTx (block : IneryBlock Tx)
  | removeBlockTx (block : IneryBlock Tx)
  | clear
  | flush

/-- A level of a stack takes the operation `f`, which sees the level and those under it. -/
def atLevel {α : Type} (f : List α → Option (List α)) : ℕ → List α → Option (List α)
  | 0, s => f s
  | _ + 1, [] => none
  | i + 1, c :: s => (atLevel f i s).map (c :: ·)

namespace TxMemOp

variable {Tx : Type} (getHash : Tx → Uint256)

/-- The operation on the cache at the top of a stack. -/
def apply (s : TxMemStack) : TxMemOp Tx → Option TxMemStack
  | addBlockTx block => if s = [] then none else some (s.addBlockTx getHash block)
  | removeBlockTx block => if s = [] then none else some (s.removeBlockTx getHash block)
  | clear => if s = [] then none else some s.clear
  | flush => s.flush

/-- The same operation on the edits: a flush moves them to the base. -/
def edit : TxEditStack → TxMemOp Tx → Option TxEditStack
  | edits :: pBase, addBlockTx block => some ((edits ++ [.add (TxMemStack.txidsOf getHash block)]) :: pBase)
  | edits :: pBase, removeBlockTx block =>
    some ((edits ++ [.remove (TxMemStack.txidsOf getHash block)]) :: pBase)
  | _ :: pBase, clear => some ([] :: pBase)
  | edits :: base :: pBase, flush => some ([] :: (base ++ edits) :: pBase)
  | _, _ => none

theorem length_edit {es es' : TxEditStack} {op : TxMemOp Tx} (h : op.edit getHash es = some es') :
    es'.length = es.length := by
  unfold edit at h
  split at h
  · rw [← Option.some.inj h]; rfl
  · rw [← Option.some.inj h]; rfl
  · rw [← Option.some.inj h]; rfl
  · rw [← Option.some.inj h]; rfl
  · cases h

end TxMemOp

/-- **The edits of every level are what its marks do to a set**; the root holds no mark of removal. -/
inductive Represents : TxMemStack → TxEditStack → Prop
  | root {txids : TxIdMap} {edits : List TxEdit} (hmarks : ∀ t, txids.find? t ≠ some false)
      (hedits : TxMemStack.overlay txids ∅ = edits.foldl TxEdit.apply ∅) : Represents [txids] [edits]
  | level {txids : TxIdMap} {edits : List TxEdit} {s : TxMemStack} {es : TxEditStack}
      (hedits : ∀ S, TxMemStack.overlay txids S = edits.foldl TxEdit.apply S) (hbase : Represents s es) :
      Represents (txids :: s) (edits :: es)

namespace Represents

variable {s : TxMemStack} {es : TxEditStack}

theorem ne_nil (h : Represents s es) : s ≠ [] := by
  cases h <;> exact List.cons_ne_nil _ _

theorem length_eq (h : Represents s es) : s.length = es.length := by
  induction h with
  | root => rfl
  | level _ _ ih => exact congrArg Nat.succ ih

theorem txSet_eq (h : Represents s es) : TxMemStack.txSet s = TxEditStack.setAt es := by
  induction h with
  | root _ hedits => rw [TxMemStack.txSet_cons, TxMemStack.txSet_nil, hedits]; rfl
  | level hedits _ ih => rw [TxMemStack.txSet_cons, hedits, ih]; rfl

theorem txSet_drop (h : Represents s es) (i : ℕ) :
    TxMemStack.txSet (s.drop i) = TxEditStack.setAt (es.drop i) := by
  induction h generalizing i with
  | root hmarks hedits =>
    cases i with
    | zero => exact (root hmarks hedits).txSet_eq
    | succ i =>
      rw [List.drop_succ_cons, List.drop_nil, List.drop_succ_cons, List.drop_nil, TxMemStack.txSet_nil]
      rfl
  | level hedits hbase ih =>
    cases i with
    | zero => exact (level hedits hbase).txSet_eq
    | succ i => exact ih i

theorem root_marks (h : Represents s es) : ∀ txids ∈ s.getLast?, ∀ t, txids.find? t ≠ some false := by
  induction h with
  | root hmarks => simpa using hmarks
  | level hedits hbase ih =>
    obtain ⟨c, s, rfl⟩ := List.exists_cons_of_ne_nil hbase.ne_nil
    rwa [List.getLast?_cons_cons]

variable {Tx : Type} (getHash : Tx → Uint256)

theorem addBlockTx (h : Represents s es) (block : IneryBlock Tx) :
    ∃ es', (TxMemOp.addBlockTx block).edit getHash es = some es' ∧
      Represents (s.addBlockTx getHash block) es' := by
  cases h with
  | root hmarks hedits =>
    refine ⟨_, rfl, root (fun t ht => ?_) ?_⟩
    · rw [SortedMap.find?_foldl_insert_const] at ht
      split_ifs at ht with hmem
      · cases ht
      · exact hmarks t ht
    · rw [TxMemStack.overlay_foldl_add, hedits, List.foldl_append]
      rfl
  | level hedits hbase =>
    refine ⟨_, rfl, level (fun S => ?_) hbase⟩
    rw [TxMemStack.overlay_foldl_add, hedits, List.foldl_append]
    rfl

theorem removeBlockTx (h : Represents s es) (block : IneryBlock Tx) :
    ∃ es', (TxMemOp.removeBlockTx block).edit getHash es = some es' ∧
      Represents (s.removeBlockTx getHash block) es' := by
  cases h with
  | root hmarks hedits =>
    refine ⟨_, rfl, root (fun t ht => ?_) ?_⟩
    · rw [SortedMap.find?_foldl_erase] at ht
      split_ifs at ht
      exact hmarks t ht
    · rw [TxMemStack.overlay_foldl_erase, hedits, List.foldl_append]
      rfl
  | @level c edits s es hedits hbase =>
    obtain ⟨b, s, rfl⟩ := List.exists_cons_of_ne_nil hbase.ne_nil
    refine ⟨_, rfl, level (fun S => ?_) hbase⟩
    rw [TxMemStack.overlay_foldl_remove, hedits, List.foldl_append]
    rfl

theorem clear (h : Represents s es) :
    ∃ es', (TxMemOp.clear : TxMemOp Tx).edit getHash es = some es' ∧ Represents s.clear es' := by
  cases h with
  | root => exact ⟨_, rfl, root (fun t ht => by cases ht) rfl⟩
  | level _ hbase => exact ⟨_, rfl, level (fun _ => rfl) hbase⟩

theorem flush (h : Represents s es) (hs : 2 ≤ s.length) :
    ∃ s' es', s.flush = some s' ∧ (TxMemOp.flush : TxMemOp Tx).edit getHash es = some es' ∧
      Represents s' es' := by
  cases h with
  | root => exact absurd hs (by simp)
  | @level c edits s es hedits hbase =>
    cases hbase with
    | @root b base hmarks hbase =>
      refine ⟨_, _, rfl, rfl, level (fun _ => rfl) (root (fun t ht => ?_) ?_)⟩
      · rw [TxMemStack.find?_batchWrite_root] at ht
        rcases hc : c.find? t with _ | _ | _
        · rw [hc] at ht
          exact hmarks t ht
        · rw [hc] at ht
          cases ht
        · rw [hc] at ht
          cases ht
      · rw [TxMemStack.overlay_batchWrite_root, hedits, hbase, List.foldl_append]
    | @level b base s es hb hbase =>
      obtain ⟨b', s, rfl⟩ := List.exists_cons_of_ne_nil hbase.ne_nil
      refine ⟨_, _, rfl, rfl, level (fun _ => rfl) (level (fun S => ?_) hbase)⟩
      rw [TxMemStack.overlay_foldl_insert, hedits, hb, List.foldl_append]

/-- **One operation at the top of a stack keeps the relation.** -/
theorem apply (h : Represents s es) {op : TxMemOp Tx} (hop : op = .flush → 2 ≤ s.length) :
    ∃ s' es', op.apply getHash s = some s' ∧ op.edit getHash es = some es' ∧ Represents s' es' := by
  have hs := h.ne_nil
  cases op with
  | addBlockTx block =>
    obtain ⟨es', hes', h'⟩ := h.addBlockTx getHash block
    exact ⟨_, es', if_neg hs, hes', h'⟩
  | removeBlockTx block =>
    obtain ⟨es', hes', h'⟩ := h.removeBlockTx getHash block
    exact ⟨_, es', if_neg hs, hes', h'⟩
  | clear =>
    obtain ⟨es', hes', h'⟩ := h.clear getHash
    exact ⟨_, es', if_neg hs, hes', h'⟩
  | flush => exact h.flush getHash (hop rfl)

/-- **One operation at a level keeps the relation**, and the depth. -/
theorem atLevel (h : Represents s es) {i : ℕ} {op : TxMemOp Tx} (hi : i < s.length)
    (hop : op = .flush → i + 1 < s.length) :
    ∃ s' es', Inery.atLevel (op.apply getHash ·) i s = some s' ∧
      Inery.atLevel (op.edit getHash ·) i es = some es' ∧ Represents s' es' ∧ s'.length = s.length := by
  induction i generalizing s es with
  | zero =>
    obtain ⟨s', es', hs', hes', h'⟩ := h.apply getHash hop
    refine ⟨s', es', hs', hes', h', ?_⟩
    rw [h'.length_eq, h.length_eq, TxMemOp.length_edit getHash hes']
  | succ i ih =>
    cases h with
    | root => exact absurd hi (by simp)
    | level hedits hbase =>
      obtain ⟨s', es', hs', hes', h', hlen⟩ :=
        ih hbase (Nat.lt_of_succ_lt_succ hi) fun e => Nat.lt_of_succ_lt_succ (hop e)
      refine ⟨_, _, ?_, ?_, level hedits h', congrArg Nat.succ hlen⟩
      · rw [Inery.atLevel, hs']
        rfl
      · rw [Inery.atLevel, hes']
        rfl

theorem replicate (n : ℕ) : Represents (List.replicate (n + 1) ∅) (List.replicate (n + 1) []) := by
  induction n with
  | zero => exact root (fun t ht => by cases ht) rfl
  | succ n ih => exact level (fun _ => rfl) ih

end Represents

/-! ## Runs -/

namespace TxMemStack

variable {Tx : Type} (getHash : Tx → Uint256)

/-- One operation of the cache at a level. -/
def step (s : TxMemStack) (o : ℕ × TxMemOp Tx) : Option TxMemStack :=
  atLevel (o.2.apply getHash ·) o.1 s

/-- The same operation on the edits of the levels. -/
def editStep (es : TxEditStack) (o : ℕ × TxMemOp Tx) : Option TxEditStack :=
  atLevel (o.2.edit getHash ·) o.1 es

/-- **What one operation keeps holds after a run**, in which the code and the edits keep step. -/
theorem represents_run {n : ℕ} {s : TxMemStack} {es : TxEditStack} (h : Represents s es)
    (hs : s.length = n + 1) {ops : List (ℕ × TxMemOp Tx)}
    (hops : ∀ o ∈ ops, o.1 ≤ n ∧ (o.2 = .flush → o.1 < n)) :
    ∃ s' es', run (step getHash) s ops = some s' ∧ run (editStep getHash) es ops = some es' ∧
      Represents s' es' := by
  induction ops generalizing s es with
  | nil => exact ⟨s, es, rfl, rfl, h⟩
  | cons o ops ih =>
    obtain ⟨hlevel, hflush⟩ := hops o List.mem_cons_self
    have hi : o.1 < s.length := by omega
    have hi' : o.2 = .flush → o.1 + 1 < s.length := fun e => by
      have := hflush e
      omega
    obtain ⟨s₁, es₁, hs₁, hes₁, h₁, hlen⟩ := h.atLevel getHash hi hi'
    obtain ⟨s', es', hs', hes', h'⟩ :=
      ih h₁ (hlen.trans hs) fun o ho => hops o (List.mem_cons_of_mem _ ho)
    refine ⟨s', es', ?_, ?_, h'⟩
    · rw [run_cons, step, hs₁]
      exact hs'
    · rw [run_cons, editStep, hes₁]
      exact hes'

/-- **A stack of transaction caches refines one set of ids.** From empty caches, a run of operations on the
levels, with no flush of the root, never fails. In the state it reaches, every level answers for the set
that its edits make of the set of its base, the root holds no mark of removal, and the operations act on
the sets. -/
theorem tx_stack_refines_set (n : ℕ) {ops : List (ℕ × TxMemOp Tx)}
    (hops : ∀ o ∈ ops, o.1 ≤ n ∧ (o.2 = .flush → o.1 < n)) :
    ∃ s es, run (step getHash) (List.replicate (n + 1) ∅) ops = some s ∧
      run (editStep getHash) (List.replicate (n + 1) []) ops = some es ∧
      (∀ i t, hasTx (s.drop i) t = true ↔ t ∈ TxEditStack.setAt (es.drop i)) ∧
      (∀ root ∈ s.getLast?, ∀ t, root.find? t ≠ some false) ∧
      ∀ us c bs, s = us ++ c :: bs → RefinesTxSet getHash c bs := by
  obtain ⟨s, es, hs, hes, h⟩ := represents_run getHash (Represents.replicate n) List.length_replicate hops
  refine ⟨s, es, hs, hes, fun i t => ?_, h.root_marks, fun _ c bs _ => refinesTxSet getHash c bs⟩
  rw [← h.txSet_drop i]
  rfl

/-- A block of the transactions with these ids. -/
def blockOf (txids : List Uint256) : IneryBlock Uint256 := ⟨⟨0, 0, 0, 0, 0, 0, 0, 0, []⟩, txids⟩

/-- A block is connected in the root, disconnected in a cache above it, and the cache is flushed. -/
theorem tx_stack_refines_set_run :
    let ops : List (ℕ × TxMemOp Uint256) := [(1, .addBlockTx (blockOf [5, 6])),
      (0, .removeBlockTx (blockOf [6])), (0, .addBlockTx (blockOf [7])), (0, .flush)]
    ∃ s es, run (step id) (List.replicate 2 ∅) ops = some s ∧
      run (editStep id) (List.replicate 2 []) ops = some es ∧
      (∀ i t, hasTx (s.drop i) t = true ↔ t ∈ TxEditStack.setAt (es.drop i)) ∧
      (∀ root ∈ s.getLast?, ∀ t, root.find? t ≠ some false) ∧
      ∀ us c bs, s = us ++ c :: bs → RefinesTxSet id c bs := by
  intro ops
  exact tx_stack_refines_set id 1 (by simp [ops])

end TxMemStack

end Inery
