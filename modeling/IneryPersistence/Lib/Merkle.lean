import Mathlib.Algebra.GroupWithZero.Nat
import Mathlib.Data.List.Basic
import Mathlib.Data.List.Flatten
import Mathlib.Tactic.Common

/-!
# Hash trees over lists of any length

* `levelUp`, `levels`, `root`: neighbours are combined level by level, and a last node without a
  neighbour with itself;
* `HashTree`, `tree`: the same with trees in place of hashes;
* `filled`: the leaves as the tree repeats them;
* **`root_eq_root_iff`**: without collisions, two roots are the same exactly if the filled leaves are.
-/

namespace KV.Merkle

variable {A B : Type} (H : A → A → A) (G : B → B → B)

/-- The nodes above a level. -/
def levelUp : List A → List A
  | [] => []
  | [a] => [H a a]
  | a :: b :: l => H a b :: levelUp l

@[simp] theorem length_levelUp (l : List A) : (levelUp H l).length = (l.length + 1) / 2 := by
  fun_induction levelUp H l with
  | case1 => simp
  | case2 a => simp
  | case3 a b l ih =>
    simp only [List.length_cons, ih]
    omega

theorem levelUp_ne_nil {l : List A} (h : l ≠ []) : levelUp H l ≠ [] := by
  rw [← List.length_pos_iff, length_levelUp]
  have := List.length_pos_iff.mpr h
  omega

theorem levelUp_drop {l : List A} {i : ℕ} {a b : A} (ha : l[i]? = some a)
    (hb : l[min (i + 1) (l.length - 1)]? = some b) :
    levelUp H (l.drop i) = H a b :: levelUp H (l.drop (i + 2)) := by
  induction l generalizing i with
  | nil => exact absurd ha (by simp)
  | cons c l ih =>
    cases i with
    | zero =>
      obtain rfl : c = a := Option.some.inj ha
      cases l with
      | nil =>
        obtain rfl : c = b := Option.some.inj hb
        rfl
      | cons d l =>
        have h1 : min (0 + 1) ((c :: d :: l).length - 1) = 1 := by simp
        rw [h1] at hb
        obtain rfl : d = b := Option.some.inj hb
        rfl
    | succ i =>
      have hi : i + 1 < (c :: l).length := by
        obtain ⟨hi, -⟩ := List.getElem?_eq_some_iff.mp ha
        exact hi
      have hmin : min (i + 1 + 1) ((c :: l).length - 1) = min (i + 1) (l.length - 1) + 1 := by
        rw [List.length_cons] at hi ⊢
        omega
      rw [hmin] at hb
      exact ih ha hb

/-- Where the neighbour of a node is; the last node is its own one. -/
def sibling (n i : ℕ) : ℕ := min (if i % 2 = 0 then i + 1 else i - 1) (n - 1)

/-- **A node is made of a node below it and the neighbour of that.** -/
theorem getElem?_levelUp {l : List A} {i : ℕ} {a b : A} (ha : l[i]? = some a)
    (hb : l[sibling l.length i]? = some b) :
    (levelUp H l)[i / 2]? = some (if i % 2 = 0 then H a b else H b a) := by
  fun_induction levelUp H l generalizing i with
  | case1 => exact absurd ha (by simp)
  | case2 c =>
    obtain ⟨rfl, rfl⟩ : i = 0 ∧ c = a := by
      cases i with
      | zero => exact ⟨rfl, Option.some.inj ha⟩
      | succ i => exact absurd ha (by simp)
    obtain rfl : c = b := Option.some.inj hb
    rfl
  | case3 c d l ih =>
    match i with
    | 0 =>
      obtain rfl : c = a := Option.some.inj ha
      have h1 : sibling (c :: d :: l).length 0 = 1 := by simp [sibling]
      rw [h1] at hb
      obtain rfl : d = b := Option.some.inj hb
      rfl
    | 1 =>
      obtain rfl : d = a := Option.some.inj ha
      have h0 : sibling (c :: d :: l).length 1 = 0 := by simp [sibling]
      rw [h0] at hb
      obtain rfl : c = b := Option.some.inj hb
      rfl
    | i + 2 =>
      have hi : i < l.length := by
        obtain ⟨hi, -⟩ := List.getElem?_eq_some_iff.mp ha
        simpa using hi
      have hsib : sibling (c :: d :: l).length (i + 2) = sibling l.length i + 2 := by
        simp only [sibling, List.length_cons]
        split_ifs <;> omega
      rw [hsib] at hb
      have := ih ha hb
      rw [Nat.add_div_right _ (by decide), Nat.add_mod_right]
      exact this

/-- The levels of the tree over `l`, the leaves first. -/
def levels (l : List A) : List (List A) :=
  if l.length ≤ 1 then [l] else l :: levels (levelUp H l)
termination_by l.length
decreasing_by
  rw [length_levelUp]
  omega

/-- The nodes above the leaves. -/
def inner (l : List A) : List A := if l.length ≤ 1 then [] else (levels H (levelUp H l)).flatten

theorem flatten_levels (l : List A) : (levels H l).flatten = l ++ inner H l := by
  rw [levels, inner]
  split_ifs
  · rfl
  · rfl

/-- The root of the tree over `l`. -/
def root (l : List A) : Option A := if l.length ≤ 1 then l.head? else root (levelUp H l)
termination_by l.length
decreasing_by
  rw [length_levelUp]
  omega

theorem root_isSome {l : List A} (h : l ≠ []) : (root H l).isSome := by
  fun_induction root H l with
  | case1 l hl => simpa using h
  | case2 l hl ih => exact ih (levelUp_ne_nil H h)

/-- **The root is the last node.** -/
theorem getLast?_flatten_levels (l : List A) : (levels H l).flatten.getLast? = root H l := by
  fun_induction root H l with
  | case1 l hl =>
    rw [levels, if_pos hl, List.flatten_singleton]
    match l, hl with
    | [], _ => rfl
    | [a], _ => rfl
  | case2 l hl ih =>
    have hne : (levels H (levelUp H l)).flatten ≠ [] := by
      rw [flatten_levels]
      intro h
      refine levelUp_ne_nil H ?_ (List.append_eq_nil_iff.mp h).1
      rintro rfl
      exact hl (Nat.zero_le 1)
    rw [levels, if_neg hl, List.flatten_cons, List.getLast?_append_of_ne_nil _ hne, ih]

/-! ## Other nodes in place of the hashes -/

section Map

variable {H G} {f : A → B} (hf : ∀ a b, f (H a b) = G (f a) (f b))

include hf

theorem levelUp_map (l : List A) : levelUp G (l.map f) = (levelUp H l).map f := by
  fun_induction levelUp H l with
  | case1 => rfl
  | case2 a => simp [levelUp, hf]
  | case3 a b l ih => simp [levelUp, hf, ih]

theorem root_map (l : List A) : root G (l.map f) = (root H l).map f := by
  fun_induction root H l with
  | case1 l hl => rw [root, List.length_map, if_pos hl, List.head?_map]
  | case2 l hl ih => rw [root, List.length_map, if_neg hl, levelUp_map hf, ih]

theorem levels_map (l : List A) : levels G (l.map f) = (levels H l).map (List.map f) := by
  fun_induction levels H l with
  | case1 l hl =>
    rw [levels, List.length_map, if_pos hl]
    rfl
  | case2 l hl ih => rw [levels, List.length_map, if_neg hl, levelUp_map hf, ih, List.map_cons]

end Map

/-! ## Trees in place of hashes -/

/-- What a hash stands for. -/
inductive HashTree (A : Type)
  | leaf (a : A)
  | node (left right : HashTree A)

namespace HashTree

variable {H}

/-- The hash of a tree. -/
def hash (H : A → A → A) : HashTree A → A
  | leaf a => a
  | node left right => H (left.hash H) (right.hash H)

/-- The leaves of a tree, from left to right. -/
def leaves : HashTree A → List A
  | leaf a => [a]
  | node left right => left.leaves ++ right.leaves

/-- A tree whose leaves are all at depth `d`. -/
def Perfect : ℕ → HashTree A → Prop
  | 0, leaf _ => True
  | d + 1, node left right => left.Perfect d ∧ right.Perfect d
  | _, _ => False

theorem Perfect.length_leaves {d : ℕ} {t : HashTree A} (h : t.Perfect d) : t.leaves.length = 2 ^ d := by
  induction d generalizing t with
  | zero =>
    cases t with
    | leaf a => rfl
    | node left right => exact h.elim
  | succ d ih =>
    cases t with
    | leaf a => exact h.elim
    | node left right =>
      rw [leaves, List.length_append, ih h.1, ih h.2]
      omega

theorem Perfect.ext {d : ℕ} {t t' : HashTree A} (h : t.Perfect d) (h' : t'.Perfect d)
    (hleaves : t.leaves = t'.leaves) : t = t' := by
  induction d generalizing t t' with
  | zero =>
    cases t with
    | node left right => exact h.elim
    | leaf a =>
      cases t' with
      | node left right => exact h'.elim
      | leaf b => rw [List.head_eq_of_cons_eq hleaves]
  | succ d ih =>
    cases t with
    | leaf a => exact h.elim
    | node left right =>
      cases t' with
      | leaf a => exact h'.elim
      | node left' right' =>
        have hlen : left.leaves.length = left'.leaves.length := by
          rw [h.1.length_leaves, h'.1.length_leaves]
        obtain ⟨hl, hr⟩ := List.append_inj hleaves hlen
        rw [ih h.1 h'.1 hl, ih h.2 h'.2 hr]

theorem eq_of_leaves_eq {d d' : ℕ} {t t' : HashTree A} (h : t.Perfect d) (h' : t'.Perfect d')
    (hleaves : t.leaves = t'.leaves) : t = t' := by
  have hlen : 2 ^ d = 2 ^ d' := by rw [← h.length_leaves, ← h'.length_leaves, hleaves]
  obtain rfl := (Nat.pow_right_inj Nat.one_lt_two).mp hlen
  exact h.ext h' hleaves

/-- The subtrees of the trees in `S` are in `S`. -/
def Closed (S : HashTree A → Prop) : Prop := ∀ left right, S (node left right) → S left ∧ S right

/-- **Without collisions among its subtrees**, and no leaf that is a hash, a tree is given by its hash. -/
theorem eq_of_hash_eq {S : HashTree A → Prop} (hS : Closed S)
    (hinj : ∀ t₁ t₂ t₃ t₄, S t₁ → S t₂ → S t₃ → S t₄ →
      H (t₁.hash H) (t₂.hash H) = H (t₃.hash H) (t₄.hash H) → t₁.hash H = t₃.hash H ∧ t₂.hash H = t₄.hash H)
    (hleaf : ∀ a t₁ t₂, S (leaf a) → S t₁ → S t₂ → a ≠ H (t₁.hash H) (t₂.hash H))
    {t t' : HashTree A} (ht : S t) (ht' : S t') (h : t.hash H = t'.hash H) : t = t' := by
  induction t generalizing t' with
  | leaf a =>
    cases t' with
    | leaf b => exact congrArg leaf h
    | node left right =>
      obtain ⟨hl, hr⟩ := hS _ _ ht'
      exact absurd h (hleaf a left right ht hl hr)
  | node left right ihl ihr =>
    obtain ⟨hl, hr⟩ := hS _ _ ht
    cases t' with
    | leaf b => exact absurd h.symm (hleaf b left right ht' hl hr)
    | node left' right' =>
      obtain ⟨hl', hr'⟩ := hS _ _ ht'
      obtain ⟨h₁, h₂⟩ := hinj left right left' right' hl hr hl' hr' h
      rw [ihl hl hl' h₁, ihr hr hr' h₂]

end HashTree

/-- The tree over some leaves. -/
def tree (l : List A) : Option (HashTree A) := root .node (l.map .leaf)

/-- The leaves as the tree repeats them. -/
def filled (l : List A) : Option (List A) := root (· ++ ·) (l.map fun a => [a])

theorem root_eq_tree (l : List A) : root H l = (tree l).map (HashTree.hash H) := by
  rw [tree, ← root_map (f := HashTree.hash H) (G := H) fun a b => rfl, List.map_map]
  exact congrArg (root H) (List.map_id l).symm

theorem filled_eq_tree (l : List A) : filled l = (tree l).map HashTree.leaves := by
  rw [tree, ← root_map (f := HashTree.leaves) (G := (· ++ ·)) fun a b => rfl, List.map_map]
  rfl

variable {H}

theorem mem_levelUp {l : List A} {x : A} (h : x ∈ levelUp H l) : ∃ a ∈ l, ∃ b ∈ l, x = H a b := by
  fun_induction levelUp H l with
  | case1 => exact absurd h List.not_mem_nil
  | case2 a => exact ⟨a, List.mem_singleton_self a, a, List.mem_singleton_self a, List.mem_singleton.mp h⟩
  | case3 a b l ih =>
    rcases List.mem_cons.mp h with rfl | h
    · exact ⟨a, by simp, b, by simp, rfl⟩
    · obtain ⟨c, hc, d, hd, rfl⟩ := ih h
      exact ⟨c, by simp [hc], d, by simp [hd], rfl⟩

theorem perfect_root {d : ℕ} {l : List (HashTree A)} (hl : ∀ t ∈ l, t.Perfect d) {t : HashTree A}
    (ht : t ∈ root .node l) : ∃ d', t.Perfect d' := by
  fun_induction root HashTree.node l generalizing d with
  | case1 l hlen => exact ⟨d, hl t (List.mem_of_mem_head? ht)⟩
  | case2 l hlen ih =>
    refine ih (d := d + 1) (fun t ht => ?_) ht
    obtain ⟨left, hleft, right, hright, rfl⟩ := mem_levelUp ht
    exact ⟨hl left hleft, hl right hright⟩

theorem perfect_tree {l : List A} {t : HashTree A} (ht : t ∈ tree l) : ∃ d, t.Perfect d := by
  refine perfect_root (d := 0) (fun t ht => ?_) ht
  obtain ⟨a, -, rfl⟩ := List.mem_map.mp ht
  trivial

theorem mem_levels {l : List A} {x : A} (h : x ∈ (levels H l).flatten) :
    x ∈ l ∨ ∃ a ∈ (levels H l).flatten, ∃ b ∈ (levels H l).flatten, x = H a b := by
  fun_induction levels H l with
  | case1 l hlen => exact .inl (by simpa using h)
  | case2 l hlen ih =>
    rw [List.flatten_cons, List.mem_append] at h
    rcases h with h | h
    · exact .inl h
    · right
      rcases ih h with h | ⟨a, ha, b, hb, rfl⟩
      · obtain ⟨a, ha, b, hb, rfl⟩ := mem_levelUp h
        exact ⟨a, List.mem_append_left _ ha, b, List.mem_append_left _ hb, rfl⟩
      · exact ⟨a, List.mem_append_right _ ha, b, List.mem_append_right _ hb, rfl⟩

/-- The nodes of the tree over some leaves. -/
def subtrees (l : List A) : List (HashTree A) := (levels .node (l.map .leaf)).flatten

theorem closed_subtrees (l : List A) : HashTree.Closed (· ∈ subtrees l) := by
  intro left right h
  rcases mem_levels h with h | ⟨t, ht, t', ht', heq⟩
  · obtain ⟨a, -, ha⟩ := List.mem_map.mp h
    cases ha
  · obtain ⟨rfl, rfl⟩ := HashTree.node.inj heq
    exact ⟨ht, ht'⟩

theorem leaf_mem_subtrees {l : List A} {a : A} (h : .leaf a ∈ subtrees l) : a ∈ l := by
  rcases mem_levels h with h | ⟨t, -, t', -, heq⟩
  · obtain ⟨b, hb, hba⟩ := List.mem_map.mp h
    rwa [← HashTree.leaf.inj hba]
  · cases heq

theorem mem_subtrees {l : List A} {t : HashTree A} (h : t ∈ tree l) : t ∈ subtrees l := by
  rw [tree, ← getLast?_flatten_levels] at h
  exact List.mem_of_getLast? h

theorem flatten_levels_eq (l : List A) :
    (levels H l).flatten = (subtrees l).map (HashTree.hash H) := by
  have hmap := levels_map (H := HashTree.node) (f := HashTree.hash H) (G := H) (fun a b => rfl)
    (l.map HashTree.leaf)
  rw [List.map_map] at hmap
  rw [subtrees, List.map_flatten, ← hmap]
  exact congrArg (fun l => (levels H l).flatten) (List.map_id l).symm

theorem hash_mem_levels {l : List A} {t : HashTree A} (h : t ∈ subtrees l) :
    t.hash H ∈ (levels H l).flatten := by
  rw [flatten_levels_eq]
  exact List.mem_map_of_mem h

variable (H) in
/-- No two pairs of nodes have one hash, and no leaf is the hash of two nodes. -/
structure CollisionFree (leaves nodes : List A) : Prop where
  inj : ∀ a ∈ nodes, ∀ b ∈ nodes, ∀ c ∈ nodes, ∀ d ∈ nodes, H a b = H c d → a = c ∧ b = d
  leaf_ne : ∀ t ∈ leaves, ∀ a ∈ nodes, ∀ b ∈ nodes, t ≠ H a b

instance [DecidableEq A] (leaves nodes : List A) : Decidable (CollisionFree H leaves nodes) :=
  decidable_of_iff
    ((∀ a ∈ nodes, ∀ b ∈ nodes, ∀ c ∈ nodes, ∀ d ∈ nodes, H a b = H c d → a = c ∧ b = d) ∧
      ∀ t ∈ leaves, ∀ a ∈ nodes, ∀ b ∈ nodes, t ≠ H a b)
    ⟨fun h => ⟨h.1, h.2⟩, fun h => ⟨h.1, h.2⟩⟩

theorem tree_eq_tree {l l' : List A}
    (h : CollisionFree H (l ++ l') ((levels H l).flatten ++ (levels H l').flatten))
    (hroot : root H l = root H l') : tree l = tree l' := by
  have hmem : ∀ t, t ∈ subtrees l ∨ t ∈ subtrees l' →
      t.hash H ∈ (levels H l).flatten ++ (levels H l').flatten := fun t ht =>
    List.mem_append.mpr (ht.imp hash_mem_levels hash_mem_levels)
  have hclosed : HashTree.Closed fun t => t ∈ subtrees l ∨ t ∈ subtrees l' := by
    rintro left right (ht | ht)
    · exact (closed_subtrees l left right ht).imp .inl .inl
    · exact (closed_subtrees l' left right ht).imp .inr .inr
  rw [root_eq_tree, root_eq_tree] at hroot
  cases ht : tree l with
  | none =>
    rw [ht] at hroot
    exact (Option.map_eq_none_iff.mp hroot.symm).symm
  | some t =>
    rw [ht] at hroot
    obtain ⟨t', ht', heq⟩ := Option.map_eq_some_iff.mp hroot.symm
    rw [ht', Option.some.injEq]
    refine HashTree.eq_of_hash_eq hclosed (fun t₁ t₂ t₃ t₄ h₁ h₂ h₃ h₄ => ?_) (fun a t₁ t₂ ha h₁ h₂ => ?_)
      (.inl (mem_subtrees ht)) (.inr (mem_subtrees ht')) heq.symm
    · exact h.inj _ (hmem t₁ h₁) _ (hmem t₂ h₂) _ (hmem t₃ h₃) _ (hmem t₄ h₄)
    · refine h.leaf_ne a ?_ _ (hmem t₁ h₁) _ (hmem t₂ h₂)
      exact List.mem_append.mpr (ha.imp leaf_mem_subtrees leaf_mem_subtrees)

theorem tree_eq_tree_iff_filled {l l' : List A} : tree l = tree l' ↔ filled l = filled l' := by
  rw [filled_eq_tree, filled_eq_tree]
  refine ⟨congrArg _, fun h => ?_⟩
  cases ht : tree l with
  | none =>
    rw [ht] at h
    exact (Option.map_eq_none_iff.mp h.symm).symm
  | some t =>
    rw [ht] at h
    obtain ⟨t', ht', heq⟩ := Option.map_eq_some_iff.mp h.symm
    obtain ⟨d, hd⟩ := perfect_tree ht
    obtain ⟨d', hd'⟩ := perfect_tree ht'
    rw [ht', HashTree.eq_of_leaves_eq hd hd' heq.symm]

/-- **What a root commits to.** Without collisions, two roots are the same exactly if the leaves are, as
the trees repeat them. -/
theorem root_eq_root_iff {l l' : List A}
    (h : CollisionFree H (l ++ l') ((levels H l).flatten ++ (levels H l').flatten)) :
    root H l = root H l' ↔ filled l = filled l' := by
  rw [← tree_eq_tree_iff_filled]
  refine ⟨tree_eq_tree h, fun htree => ?_⟩
  rw [root_eq_tree, root_eq_tree, htree]

/-! ## Filled leaves -/

theorem flatten_prefix_levelUp (l : List (List A)) : l.flatten <+: (levelUp (· ++ ·) l).flatten := by
  fun_induction levelUp (A := List A) (· ++ ·) l with
  | case1 => exact List.prefix_rfl
  | case2 a => simp
  | case3 a b l ih => simpa using ih

theorem flatten_prefix_root {l : List (List A)} {s : List A} (h : s ∈ root (· ++ ·) l) :
    l.flatten <+: s := by
  fun_induction root (A := List A) (· ++ ·) l with
  | case1 l hl =>
    match l, hl with
    | [], _ => exact absurd h (by simp)
    | [a], _ =>
      obtain rfl := Option.some.inj h
      simp
  | case2 l hl ih => exact (flatten_prefix_levelUp l).trans (ih h)

theorem prefix_filled {l s : List A} (h : s ∈ filled l) : l <+: s := by
  have := flatten_prefix_root h
  rwa [← List.flatMap_def, List.flatMap_singleton'] at this

theorem mem_flatten_levelUp {l : List (List A)} {x : A} (h : x ∈ (levelUp (· ++ ·) l).flatten) :
    x ∈ l.flatten := by
  obtain ⟨s, hs, hx⟩ := List.mem_flatten.mp h
  obtain ⟨a, ha, b, hb, rfl⟩ := mem_levelUp hs
  rcases List.mem_append.mp hx with hx | hx
  · exact List.mem_flatten.mpr ⟨a, ha, hx⟩
  · exact List.mem_flatten.mpr ⟨b, hb, hx⟩

theorem mem_flatten_of_mem_root {l : List (List A)} {s : List A} (h : s ∈ root (· ++ ·) l) {x : A}
    (hx : x ∈ s) : x ∈ l.flatten := by
  fun_induction root (A := List A) (· ++ ·) l with
  | case1 l hl => exact List.mem_flatten.mpr ⟨s, List.mem_of_mem_head? h, hx⟩
  | case2 l hl ih => exact mem_flatten_levelUp (ih h)

/-- Nothing else is repeated. -/
theorem mem_of_mem_filled {l s : List A} (h : s ∈ filled l) {x : A} (hx : x ∈ s) : x ∈ l := by
  have := mem_flatten_of_mem_root h hx
  rwa [← List.flatMap_def, List.flatMap_singleton'] at this

theorem filled_eq_none_iff {l : List A} : filled l = none ↔ l = [] := by
  constructor
  · intro h
    by_contra hl
    have hsome := root_isSome (· ++ ·) (l := l.map fun a => [a]) (by simpa using hl)
    rw [filled] at h
    rw [h] at hsome
    exact absurd hsome (by simp)
  · rintro rfl
    rw [filled, root]
    rfl

theorem eq_of_prefix_filled {l l' s : List A} (h : l <+: l') (h' : l' <+: s) (hs : s ∈ filled l)
    (hnodup : l'.Nodup) : l = l' := by
  obtain ⟨r, rfl⟩ := h
  have hr : r = [] := by
    refine List.eq_nil_iff_forall_not_mem.mpr fun x hx => ?_
    have hl := mem_of_mem_filled hs (h'.subset (List.mem_append_right _ hx))
    exact (List.nodup_append.mp hnodup).2.2 x hl x hx rfl
  rw [hr, List.append_nil]

theorem eq_of_filled_eq {l l' : List A} (h : filled l = filled l')
    (hcase : l.length = l'.length ∨ l.Nodup ∧ l'.Nodup) : l = l' := by
  cases hs : filled l with
  | none => rw [filled_eq_none_iff.mp hs, filled_eq_none_iff.mp (h.symm.trans hs)]
  | some s =>
    have hs' : s ∈ filled l' := h.symm.trans hs
    have hl := prefix_filled hs
    have hl' := prefix_filled hs'
    rcases hcase with hlen | ⟨hn, hn'⟩
    · exact (List.prefix_of_prefix_length_le hl hl' (Nat.le_of_eq hlen)).eq_of_length hlen
    · rcases Nat.le_total l.length l'.length with hle | hle
      · exact eq_of_prefix_filled (List.prefix_of_prefix_length_le hl hl' hle) hl' hs hn'
      · exact (eq_of_prefix_filled (List.prefix_of_prefix_length_le hl' hl hle) hl hs' hn).symm

end KV.Merkle
