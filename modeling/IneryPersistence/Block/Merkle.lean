import IneryPersistence.Block.Header
import IneryPersistence.Lib.Merkle

/-!
# The merkle tree of a block

* `buildMerkleTree`, `getMerkleBranch`, `checkMerkleBranch`, `getTxIndex`: the functions of `IneryBlock`,
  over the flattened levels in `vMerkleTree`;
* `buildLevels_eq`: the levels that the loops of `BuildMerkleTree` leave in it;
* **`checkMerkleBranch_getMerkleBranch`**: the branches of a tree verify;
* **`root_eq_root_iff_filled`**: what a merkle root commits to;
* **`getTxIndex_iff`**: the transactions of a block are found, and its inner nodes too.
-/

namespace Inery

open KV

/-- A block with the tree that it only has in memory. -/
structure MerkleBlock (Tx : Type) extends IneryBlock Tx where
  vMerkleTree : List Uint256

/-- `vMerkleTree[k]`; `none` outside of the vector. -/
def readNode (vMerkleTree : List Uint256) (k : ℤ) : Option Uint256 :=
  if 0 ≤ k then vMerkleTree[k.toNat]? else none

theorem readNode_natCast (vMerkleTree : List Uint256) (k : ℕ) :
    readNode vMerkleTree k = vMerkleTree[k]? := if_pos (Int.natCast_nonneg k)

/-- No `int32_t` overflows at a level of `nSize` nodes from position `j` on: not `j + i`, `i + 2` or
`nSize + 1`, and not the next `j`. -/
def LevelFits (j nSize : ℕ) : Prop := j + nSize < 2 ^ 31 ∧ nSize + 1 < 2 ^ 31

instance (j nSize : ℕ) : Decidable (LevelFits j nSize) := inferInstanceAs (Decidable (_ ∧ _))

section Tree

variable {Tx : Type} (getHash : Tx → Uint256) (hash : Uint256 → Uint256 → Uint256)

/-- The hashes of the transactions of a block. -/
def MerkleBlock.txids (block : MerkleBlock Tx) : List Uint256 := block.vptx.map getHash

/-- The inner loop of `BuildMerkleTree`, from `i` on. -/
def buildLevel (j nSize i : ℕ) (vMerkleTree : List Uint256) : Option (List Uint256) :=
  if i < nSize then do
    let i2 := min (i + 1) (nSize - 1)
    let left ← readNode vMerkleTree (j + i : ℕ)
    let right ← readNode vMerkleTree (j + i2 : ℕ)
    buildLevel j nSize (i + 2) (vMerkleTree ++ [hash left right])
  else some vMerkleTree
termination_by nSize - i

/-- The outer loop of `BuildMerkleTree`; `none` where a read is out of bounds, or an `int32_t`
overflows. -/
def buildLevels (j nSize : ℕ) (vMerkleTree : List Uint256) : Option (List Uint256) :=
  if 1 < nSize then
    if LevelFits j nSize then do
      let vMerkleTree ← buildLevel hash j nSize 0 vMerkleTree
      buildLevels (j + nSize) ((nSize + 1) / 2) vMerkleTree
    else none
  else some vMerkleTree
termination_by nSize

/-- `BuildMerkleTree`, for a number of transactions that fits into an `int32_t`. -/
def buildMerkleTree (block : MerkleBlock Tx) : Option (Uint256 × MerkleBlock Tx) :=
  if block.vptx.length < 2 ^ 31 then do
    let vMerkleTree ← buildLevels hash 0 block.vptx.length (block.txids getHash)
    return (vMerkleTree.getLast?.getD 0, { block with vMerkleTree })
  else none

/-- `index ^ 1`. -/
def flipLast (index : ℤ) : ℤ := if index % 2 = 0 then index + 1 else index - 1

/-- The loop of `GetMerkleBranch`; `index >> 1` is the quotient by 2. -/
def branchLevels (vMerkleTree : List Uint256) (j nSize : ℕ) (index : ℤ) : Option (List Uint256) :=
  if 1 < nSize then
    if LevelFits j nSize then do
      let i := min (flipLast index) (nSize - 1)
      let otherside ← readNode vMerkleTree (j + i)
      let vMerkleBranch ← branchLevels vMerkleTree (j + nSize) ((nSize + 1) / 2) (index / 2)
      return otherside :: vMerkleBranch
    else none
  else some []
termination_by nSize

/-- `if (vMerkleTree.empty()) BuildMerkleTree()`. -/
def ensureMerkleTree (block : MerkleBlock Tx) : Option (MerkleBlock Tx) :=
  if block.vMerkleTree.isEmpty then (buildMerkleTree getHash hash block).map Prod.snd else some block

/-- `GetMerkleBranch`. -/
def getMerkleBranch (block : MerkleBlock Tx) (index : ℤ) : Option (List Uint256 × MerkleBlock Tx) := do
  let block ← ensureMerkleTree getHash hash block
  let vMerkleBranch ← branchLevels block.vMerkleTree 0 block.vptx.length index
  return (vMerkleBranch, block)

/-- The loop of `CheckMerkleBranch`; `index & 1` is the remainder by 2. -/
def foldBranch (h : Uint256) : List Uint256 → ℤ → Uint256
  | [], _ => h
  | otherside :: vMerkleBranch, index =>
    foldBranch (if index % 2 = 1 then hash otherside h else hash h otherside) vMerkleBranch (index / 2)

/-- `CheckMerkleBranch`. -/
def checkMerkleBranch (h : Uint256) (vMerkleBranch : List Uint256) (index : ℤ) : Uint256 :=
  if index = -1 then 0 else foldBranch hash h vMerkleBranch index

/-- The loop of `GetTxIndex`, from `i` on. -/
def txIndexFrom (txid : Uint256) : ℕ → List Uint256 → Bool × ℕ
  | _, [] => (false, 0)
  | i, node :: nodes => if txid = node then (true, i) else txIndexFrom txid (i + 1) nodes

/-- `GetTxIndex`. -/
def getTxIndex (block : MerkleBlock Tx) (txid : Uint256) : Bool × ℕ :=
  txIndexFrom txid 0 block.vMerkleTree

/-! ## What is built -/

variable {getHash hash}

variable (hash) in
theorem buildLevel_eq (s l nodes : List Uint256) (i : ℕ) :
    buildLevel hash s.length l.length i (s ++ (l ++ nodes)) =
      some (s ++ (l ++ (nodes ++ Merkle.levelUp hash (l.drop i)))) := by
  induction hm : l.length - i using Nat.strongRecOn generalizing i nodes with
  | _ m ih =>
    rw [buildLevel]
    split_ifs with hi
    · have hread : ∀ k, k < l.length → readNode (s ++ (l ++ nodes)) (s.length + k : ℕ) = l[k]? := by
        intro k hk
        rw [readNode_natCast, List.getElem?_append_right (Nat.le_add_right _ _), Nat.add_sub_cancel_left,
          List.getElem?_append_left hk]
      have hmin : min (i + 1) (l.length - 1) < l.length := by omega
      obtain ⟨a, ha⟩ : ∃ a, l[i]? = some a := ⟨_, List.getElem?_eq_getElem hi⟩
      obtain ⟨b, hb⟩ : ∃ b, l[min (i + 1) (l.length - 1)]? = some b := ⟨_, List.getElem?_eq_getElem hmin⟩
      have hnext := ih (l.length - (i + 2)) (by omega) (nodes ++ [hash a b]) (i + 2) rfl
      dsimp only
      rw [hread i hi, hread _ hmin, ha, hb, Merkle.levelUp_drop hash ha hb]
      simpa using hnext
    · rw [List.drop_eq_nil_of_le (Nat.le_of_not_lt hi), Merkle.levelUp, List.append_nil]

theorem buildLevels_succ (s l : List Uint256) (hl : 1 < l.length) (hfits : LevelFits s.length l.length) :
    buildLevels hash s.length l.length (s ++ l) =
      buildLevels hash (s ++ l).length (Merkle.levelUp hash l).length
        ((s ++ l) ++ Merkle.levelUp hash l) := by
  have hlevel := buildLevel_eq hash s l [] 0
  rw [List.append_nil, List.nil_append, List.drop_zero] at hlevel
  rw [buildLevels, if_pos hl, if_pos hfits, hlevel, List.length_append, Merkle.length_levelUp,
    List.append_assoc]
  rfl

/-- **The flattened levels.** -/
theorem buildLevels_eq {s l nodes : List Uint256}
    (h : buildLevels hash s.length l.length (s ++ l) = some nodes) :
    nodes = s ++ (Merkle.levels hash l).flatten := by
  fun_induction Merkle.levels hash l generalizing s with
  | case1 l hl =>
    rw [buildLevels, if_neg (Nat.not_lt.mpr hl)] at h
    obtain rfl := Option.some.inj h
    rw [List.flatten_singleton]
  | case2 l hl ih =>
    have hfits : LevelFits s.length l.length := by
      by_contra hfits
      rw [buildLevels, if_pos (Nat.lt_of_not_le hl), if_neg hfits] at h
      exact absurd h (by simp)
    rw [buildLevels_succ s l (Nat.lt_of_not_le hl) hfits] at h
    rw [ih h, List.flatten_cons, List.append_assoc]

variable (hash) in
theorem buildLevels_isSome {s l : List Uint256} {k : ℕ} (hk : l.length ≤ 2 ^ k)
    (hroom : s.length + 2 ^ (k + 1) ≤ 2 ^ 31) :
    (buildLevels hash s.length l.length (s ++ l)).isSome := by
  induction k generalizing s l with
  | zero =>
    have hl : ¬1 < l.length := Nat.not_lt.mpr hk
    rw [buildLevels, if_neg hl]
    rfl
  | succ k ih =>
    by_cases hl : 1 < l.length
    · have hfits : LevelFits s.length l.length := by
        constructor <;> omega
      rw [buildLevels_succ s l hl hfits]
      refine ih ?_ ?_
      · rw [Merkle.length_levelUp]
        omega
      · rw [List.length_append]
        omega
    · rw [buildLevels, if_neg hl]
      rfl

theorem buildMerkleTree_vptx {block built : MerkleBlock Tx} {r : Uint256}
    (h : buildMerkleTree getHash hash block = some (r, built)) :
    built = { block with vMerkleTree := (Merkle.levels hash (block.txids getHash)).flatten } ∧
      r = (Merkle.root hash (block.txids getHash)).getD 0 := by
  unfold buildMerkleTree at h
  split_ifs at h
  obtain ⟨nodes, hnodes, h⟩ := Option.bind_eq_some_iff.mp h
  obtain ⟨rfl, rfl⟩ := Prod.mk.inj (Option.some.inj h)
  have hlen : block.vptx.length = (block.txids getHash).length := (List.length_map _).symm
  rw [hlen] at hnodes
  have heq := buildLevels_eq (s := []) hnodes
  rw [List.nil_append] at heq
  rw [heq, Merkle.getLast?_flatten_levels]
  exact ⟨rfl, rfl⟩

theorem buildMerkleTree_eq {block : MerkleBlock Tx} (hn : block.vptx.length < 2 ^ 30) :
    buildMerkleTree getHash hash block =
      some ((Merkle.root hash (block.txids getHash)).getD 0,
        { block with vMerkleTree := (Merkle.levels hash (block.txids getHash)).flatten }) := by
  have hlen : (block.txids getHash).length = block.vptx.length := List.length_map _
  have hsome : (buildMerkleTree getHash hash block).isSome := by
    obtain ⟨nodes, hnodes⟩ := Option.isSome_iff_exists.mp
      (buildLevels_isSome hash (s := []) (l := block.txids getHash) (k := 30)
        (by rw [hlen]; exact hn.le) (by simp))
    rw [hlen] at hnodes
    rw [buildMerkleTree, if_pos (hn.trans (by decide))]
    exact Option.isSome_iff_exists.mpr ⟨_, Option.bind_eq_some_iff.mpr ⟨nodes, hnodes, rfl⟩⟩
  obtain ⟨⟨r, built⟩, hbuilt⟩ := Option.isSome_iff_exists.mp hsome
  obtain ⟨rfl, rfl⟩ := buildMerkleTree_vptx hbuilt
  exact hbuilt

/-! ## Branches -/

theorem min_flipLast {n i : ℕ} (hi : i < n) : min (flipLast i) ((n : ℤ) - 1) = Merkle.sibling n i := by
  unfold flipLast Merkle.sibling
  split_ifs <;> omega

variable (hash) in
/-- **A branch leads from a node to the root.** -/
theorem branchLevels_eq {s l : List Uint256} {k i : ℕ} {x : Uint256} (hk : l.length ≤ 2 ^ k)
    (hroom : s.length + 2 ^ (k + 1) ≤ 2 ^ 31) (hx : l[i]? = some x) :
    ∃ vMerkleBranch,
      branchLevels (s ++ (Merkle.levels hash l).flatten) s.length l.length i = some vMerkleBranch ∧
        Merkle.root hash l = some (foldBranch hash x vMerkleBranch i) := by
  induction k generalizing s l i x with
  | zero =>
    have hl : l.length ≤ 1 := hk
    refine ⟨[], ?_, ?_⟩
    · rw [branchLevels, if_neg (Nat.not_lt.mpr hl)]
    · obtain ⟨hi, -⟩ := List.getElem?_eq_some_iff.mp hx
      obtain rfl : i = 0 := by omega
      rw [Merkle.root, if_pos hl, List.head?_eq_getElem?, hx]
      rfl
  | succ k ih =>
    obtain ⟨hi, -⟩ := List.getElem?_eq_some_iff.mp hx
    by_cases hl : 1 < l.length
    · have hfits : LevelFits s.length l.length := by
        constructor <;> omega
      have hsib : Merkle.sibling l.length i < l.length := by
        unfold Merkle.sibling
        omega
      obtain ⟨y, hy⟩ : ∃ y, l[Merkle.sibling l.length i]? = some y := ⟨_, List.getElem?_eq_getElem hsib⟩
      have hflat : s ++ (Merkle.levels hash l).flatten =
          (s ++ l) ++ (Merkle.levels hash (Merkle.levelUp hash l)).flatten := by
        rw [Merkle.levels, if_neg (Nat.not_le.mpr hl), List.flatten_cons, List.append_assoc]
      have hread : readNode (s ++ (Merkle.levels hash l).flatten)
          (s.length + min (flipLast i) ((l.length : ℤ) - 1)) = some y := by
        rw [min_flipLast hi, ← Int.natCast_add, readNode_natCast, hflat, List.append_assoc,
          List.getElem?_append_right (Nat.le_add_right _ _), Nat.add_sub_cancel_left,
          List.getElem?_append_left hsib, hy]
      obtain ⟨vMerkleBranch, hbranch, hroot⟩ := ih (s := s ++ l) (l := Merkle.levelUp hash l) (i := i / 2)
        (by rw [Merkle.length_levelUp]; omega) (by rw [List.length_append]; omega)
        (Merkle.getElem?_levelUp hash hx hy)
      rw [← hflat, List.length_append, Merkle.length_levelUp] at hbranch
      refine ⟨y :: vMerkleBranch, ?_, ?_⟩
      · rw [branchLevels, if_pos hl, if_pos hfits]
        exact bind_eq_of_eq_some hread (bind_eq_of_eq_some hbranch rfl)
      · rw [Merkle.root, if_neg (Nat.not_le.mpr hl), hroot, foldBranch]
        have hmod : (i : ℤ) % 2 = 1 ↔ ¬i % 2 = 0 := by omega
        simp only [hmod, ite_not]
        rfl
    · exact ih (by omega) (by omega) hx

/-- **Merkle branches verify.** The tree of a block of less than `2 ^ 30` transactions is built, and the
branch of each transaction leads to its root, whether the tree was there or not. -/
theorem checkMerkleBranch_getMerkleBranch {block : MerkleBlock Tx} (hn : block.vptx.length < 2 ^ 30)
    (htree : block.vMerkleTree = [] ∨ ∃ block₀ r, buildMerkleTree getHash hash block₀ = some (r, block)) :
    ∃ r built, buildMerkleTree getHash hash block = some (r, built) ∧
      ∀ (i : ℕ) (tx : Tx), block.vptx[i]? = some tx →
        ∃ vMerkleBranch, getMerkleBranch getHash hash block i = some (vMerkleBranch, built) ∧
          checkMerkleBranch hash (getHash tx) vMerkleBranch i = r := by
  have hlen : (block.txids getHash).length = block.vptx.length := List.length_map _
  refine ⟨_, _, buildMerkleTree_eq hn, fun i tx htx => ?_⟩
  have hi : i < block.vptx.length := (List.getElem?_eq_some_iff.mp htx).1
  have htxid : (block.txids getHash)[i]? = some (getHash tx) := by
    rw [MerkleBlock.txids, List.getElem?_map, htx]
    rfl
  obtain ⟨vMerkleBranch, hbranch, hroot⟩ := branchLevels_eq hash (s := []) (k := 30)
    (by rw [hlen]; exact hn.le) (by simp) htxid
  rw [List.nil_append, List.length_nil, hlen] at hbranch
  refine ⟨vMerkleBranch, ?_, ?_⟩
  · -- the tree that is there is the one that would be built
    have hbuilt : ensureMerkleTree getHash hash block =
        some { block with vMerkleTree := (Merkle.levels hash (block.txids getHash)).flatten } := by
      unfold ensureMerkleTree
      rcases htree with hnil | ⟨block₀, r, h⟩
      · rw [hnil, buildMerkleTree_eq hn]
        rfl
      · obtain ⟨rfl, -⟩ := buildMerkleTree_vptx h
        rw [buildMerkleTree_eq hn]
        split_ifs
        · rfl
        · rfl
    rw [getMerkleBranch]
    refine bind_eq_of_eq_some hbuilt ?_
    exact bind_eq_of_eq_some hbranch rfl
  · rw [checkMerkleBranch, if_neg (by omega), hroot]
    rfl

/-! ## Roots -/

/-- **What a merkle root commits to.** Without collisions, two blocks have one root exactly if their
transactions are the same, as the trees repeat them; lists of one length, or without repetition, then
are the same. -/
theorem root_eq_root_iff_filled {block block' built built' : MerkleBlock Tx} {r r' : Uint256}
    (h : buildMerkleTree getHash hash block = some (r, built))
    (h' : buildMerkleTree getHash hash block' = some (r', built'))
    (hne : block.vptx ≠ []) (hne' : block'.vptx ≠ [])
    (hfree : Merkle.CollisionFree hash (block.txids getHash ++ block'.txids getHash)
      (built.vMerkleTree ++ built'.vMerkleTree)) :
    (r = r' ↔ Merkle.filled (block.txids getHash) = Merkle.filled (block'.txids getHash)) ∧
      (r = r' → block.vptx.length = block'.vptx.length ∨
        (block.txids getHash).Nodup ∧ (block'.txids getHash).Nodup →
          block.txids getHash = block'.txids getHash) := by
  obtain ⟨rfl, rfl⟩ := buildMerkleTree_vptx h
  obtain ⟨rfl, rfl⟩ := buildMerkleTree_vptx h'
  have hroot : ∀ b : MerkleBlock Tx, b.vptx ≠ [] →
      Merkle.root hash (b.txids getHash) = some ((Merkle.root hash (b.txids getHash)).getD 0) := by
    intro b hb
    obtain ⟨r, hr⟩ := Option.isSome_iff_exists.mp
      (Merkle.root_isSome hash (l := b.txids getHash) (by simpa [MerkleBlock.txids] using hb))
    rw [hr]
    rfl
  have hiff : (Merkle.root hash (block.txids getHash)).getD 0 =
      (Merkle.root hash (block'.txids getHash)).getD 0 ↔
        Merkle.filled (block.txids getHash) = Merkle.filled (block'.txids getHash) := by
    rw [← Merkle.root_eq_root_iff hfree, hroot block hne, hroot block' hne', Option.some.injEq]
    rfl
  refine ⟨hiff, fun heq hcase => Merkle.eq_of_filled_eq (hiff.mp heq) ?_⟩
  simpa [MerkleBlock.txids] using hcase

/-! ## Positions of transactions -/

theorem txIndexFrom_append (txid : Uint256) (n : ℕ) (l l' : List Uint256) :
    txIndexFrom txid n (l ++ l') =
      if txid ∈ l then txIndexFrom txid n l else txIndexFrom txid (n + l.length) l' := by
  induction l generalizing n with
  | nil => rfl
  | cons node l ih =>
    rw [List.cons_append, txIndexFrom, txIndexFrom, ih]
    by_cases hnode : txid = node
    · simp [hnode]
    · simp [hnode, Nat.add_assoc, Nat.add_comm 1]

theorem txIndexFrom_of_notMem {txid : Uint256} {l : List Uint256} (h : txid ∉ l) (n : ℕ) :
    txIndexFrom txid n l = (false, 0) := by
  induction l generalizing n with
  | nil => rfl
  | cons node l ih =>
    rw [List.mem_cons, not_or] at h
    rw [txIndexFrom, if_neg h.1, ih h.2]

theorem txIndexFrom_of_mem {txid : Uint256} {l : List Uint256} (h : txid ∈ l) (n : ℕ) :
    ∃ i, txIndexFrom txid n l = (true, n + i) ∧ l[i]? = some txid := by
  induction l generalizing n with
  | nil => exact absurd h List.not_mem_nil
  | cons node l ih =>
    rw [txIndexFrom]
    split_ifs with hnode
    · exact ⟨0, rfl, congrArg some hnode.symm⟩
    · obtain ⟨i, hi, hget⟩ := ih ((List.mem_cons.mp h).resolve_left hnode) (n + 1)
      exact ⟨i + 1, by rw [hi, Nat.add_assoc, Nat.add_comm 1], hget⟩

/-- **Where `GetTxIndex` finds transactions and only those.** Exactly for what is no inner node of the
tree, unless it is the hash of a transaction too. -/
theorem getTxIndex_iff {block₀ block : MerkleBlock Tx} {r : Uint256}
    (h : buildMerkleTree getHash hash block₀ = some (r, block)) (hnodup : (block.txids getHash).Nodup)
    (t : Uint256) :
    ((∀ i, getTxIndex block t = (true, i) ↔ (block.txids getHash)[i]? = some t) ∧
        (t ∉ block.txids getHash → getTxIndex block t = (false, 0))) ↔
      (t ∈ Merkle.inner hash (block.txids getHash) → t ∈ block.txids getHash) := by
  obtain ⟨rfl, -⟩ := buildMerkleTree_vptx h
  change (block₀.txids getHash).Nodup at hnodup
  change ((∀ i, txIndexFrom t 0 _ = (true, i) ↔ (block₀.txids getHash)[i]? = some t) ∧
    (t ∉ block₀.txids getHash → txIndexFrom t 0 _ = (false, 0))) ↔
      (t ∈ Merkle.inner hash (block₀.txids getHash) → t ∈ block₀.txids getHash)
  rw [Merkle.flatten_levels, txIndexFrom_append]
  by_cases ht : t ∈ block₀.txids getHash
  · obtain ⟨i, hi, hget⟩ := txIndexFrom_of_mem ht 0
    simp only [ht, if_true, hi, not_true_eq_false, false_imp_iff, and_true, imp_true_iff, iff_true]
    intro i'
    rw [Nat.zero_add, Prod.mk.injEq, eq_self_iff_true, true_and]
    constructor
    · rintro rfl
      exact hget
    · intro hget'
      obtain ⟨hlt, -⟩ := List.getElem?_eq_some_iff.mp hget
      exact (List.getElem?_inj hlt hnodup).mp (hget.trans hget'.symm)
  · rw [if_neg ht]
    constructor
    · rintro ⟨-, hnone⟩ hinner
      obtain ⟨i, hi, -⟩ := txIndexFrom_of_mem hinner (0 + (block₀.txids getHash).length)
      rw [hi] at hnone
      exact absurd (hnone ht) (by simp)
    · intro hinner
      rw [txIndexFrom_of_notMem fun h => ht (hinner h)]
      refine ⟨fun i => ?_, fun _ => rfl⟩
      constructor
      · intro he
        exact absurd he (by simp)
      · intro hget
        exact absurd (List.mem_of_getElem? hget) ht

end Tree

/-! ## Three and four transactions -/

/-- A hash that has no collisions among the nodes below. -/
def pairHash (left right : Uint256) : Uint256 := (left + right) * (left + right) + left + 100

/-- A block over some transaction hashes, without a tree. -/
def blockOver (vptx : List Uint256) : MerkleBlock Uint256 := ⟨⟨⟨1, 0, 0, 5, 0, 1, 0, 100, []⟩, vptx⟩, []⟩

theorem checkMerkleBranch_three :
    ∃ r ∈ buildMerkleTree id pairHash (blockOver [1, 2, 3]),
      ∃ branch ∈ getMerkleBranch id pairHash (blockOver [1, 2, 3]) 2,
        checkMerkleBranch pairHash 3 branch.1 2 = r.1 := by
  have hn : (blockOver [1, 2, 3]).vptx.length < 2 ^ 30 := by decide
  obtain ⟨r, built, hbuild, h⟩ :=
    @checkMerkleBranch_getMerkleBranch Uint256 id pairHash (blockOver [1, 2, 3]) hn (.inl rfl)
  obtain ⟨branch, hbranch, hcheck⟩ := h 2 3 rfl
  exact ⟨_, hbuild, _, hbranch, hcheck⟩

/-- **Two lists with one root.** A last transaction that is repeated does not change the root of three. -/
theorem root_three_eq_root_four :
    ∃ r ∈ buildMerkleTree id pairHash (blockOver [1, 2, 3]),
      ∃ r' ∈ buildMerkleTree id pairHash (blockOver [1, 2, 3, 3]),
        Merkle.CollisionFree pairHash ([1, 2, 3] ++ [1, 2, 3, 3]) (r.2.vMerkleTree ++ r'.2.vMerkleTree) ∧
          r.1 = r'.1 ∧ (blockOver [1, 2, 3]).txids id ≠ (blockOver [1, 2, 3, 3]).txids id := by
  decide +kernel

theorem root_eq_root_iff_filled_two :
    ∃ r ∈ buildMerkleTree id pairHash (blockOver [1, 2, 3]),
      ∃ r' ∈ buildMerkleTree id pairHash (blockOver [4, 5]),
        (r.1 = r'.1 ↔ Merkle.filled [1, 2, 3] = Merkle.filled [(4 : Uint256), 5]) := by
  obtain ⟨⟨r, built⟩, hr⟩ := Option.isSome_iff_exists.mp
    (by decide +kernel : (buildMerkleTree id pairHash (blockOver [1, 2, 3])).isSome)
  obtain ⟨⟨r', built'⟩, hr'⟩ := Option.isSome_iff_exists.mp
    (by decide +kernel : (buildMerkleTree id pairHash (blockOver [4, 5])).isSome)
  refine ⟨_, hr, _, hr', (root_eq_root_iff_filled hr hr' (by decide) (by decide) ?_).1⟩
  obtain ⟨rfl, -⟩ := buildMerkleTree_vptx hr
  obtain ⟨rfl, -⟩ := buildMerkleTree_vptx hr'
  decide +kernel

theorem getTxIndex_iff_three :
    ∃ r ∈ buildMerkleTree id pairHash (blockOver [1, 2, 3]),
      (∀ i, getTxIndex r.2 3 = (true, i) ↔ ([1, 2, 3] : List Uint256)[i]? = some 3) := by
  obtain ⟨⟨r, built⟩, hr⟩ := Option.isSome_iff_exists.mp
    (by decide +kernel : (buildMerkleTree id pairHash (blockOver [1, 2, 3])).isSome)
  have hiff := getTxIndex_iff hr
  obtain ⟨rfl, -⟩ := buildMerkleTree_vptx hr
  exact ⟨_, hr, ((hiff (by decide) 3).mpr fun _ => by decide).1⟩

/-- **An inner node is found too.** -/
theorem getTxIndex_inner :
    ∃ r ∈ buildMerkleTree id pairHash (blockOver [1, 2]),
      getTxIndex r.2 (pairHash 1 2) = (true, 2) ∧ r.2.vptx.length = 2 := by
  decide +kernel

end Inery
