/-
**The path tree: `BinaryTree::insert` builds a Braun tree.**

A `Node` is a `shared_node`: `null`, or a node with its `value` and two owned children. The value
has type `value_t`, one size class wider than the alphabet, so that `INVALID = -1` is no symbol;
the model stores it as an `Int`. The `parent` and `root` back-references are not stored: in a tree
built by `insert` a node's `depth()` is the length of its path from the root, and the recursive
functions below carry that length where the source walks the parent chain (`XKC.Heap` proves
this on the pointer graph).

`insert` fills the left slot, then the right slot, then descends into the child whose
`count_nodes()` is not larger, the left one on a tie. That rule keeps:

* `insert_balanced`: (a) no node has a right child without a left child; (b) at every node the left
  subtree has as many nodes as the right one, or one more (a Braun tree);
* `height_eq_log`: a balanced tree of `n ≥ 1` nodes has height `⌊log₂ n⌋`;
* `insertPath_length`: the leaf `insert` adds to a balanced tree of `n` nodes lies at depth
  `⌊log₂ (n + 1)⌋`, so the tree fills level by level.
-/

import XKC.Bits
import Mathlib.Data.Nat.Log

namespace XLib.XKC

/-- `Node::Value::INVALID`: the value of the root before the first insertion. -/
def invalid : Int := -1

/-- A `shared_node`: `null`, or a node with its value and its left and right children. -/
inductive Node where
  | null
  | node (value : Int) (left right : Node)
  deriving Repr, DecidableEq

namespace Node

/-- `Node::count_nodes()`: the number of nodes below this one. -/
def countNodes : Node → Nat
  | null => 0
  | node _ left right =>
      (if left = null then 0 else left.countNodes + 1) +
        (if right = null then 0 else right.countNodes + 1)

/-- `Node::height()`: the longest edge count down to a leaf. -/
def height : Node → Nat
  | null => 0
  | node _ left right =>
      max (if left = null then 0 else left.height + 1) (if right = null then 0 else right.height + 1)

/-- The number of nodes of a subtree, `0` for `null`. -/
def size : Node → Nat
  | null => 0
  | node _ left right => left.size + right.size + 1

/-- A node with no children, as `new Node({ parent->root, parent, value })` makes it. -/
def leaf (value : Int) : Node := node value null null

/-- `BinaryTree::insert(parent, value)`: a new leaf in the first empty child slot of `parent`, or
else in the child subtree with fewer nodes, the left one on a tie. The source calls it on live
nodes only. -/
def insert : Node → Nat → Node
  | null, _ => null
  | node v left right, value =>
      if left = null then node v (leaf value) right
      else if right = null then node v left (leaf value)
      else if left.countNodes ≤ right.countNodes then node v (left.insert value) right
      else node v left (right.insert value)

/-- The left/right turns `insert` takes down to the slot of the new leaf. -/
def insertPath : Node → List Bool
  | null => []
  | node _ left right =>
      if left = null then [false]
      else if right = null then [true]
      else if left.countNodes ≤ right.countNodes then false :: left.insertPath
      else true :: right.insertPath

@[simp] theorem size_null : null.size = 0 := rfl

@[simp] theorem size_node (v : Int) (left right : Node) :
    (node v left right).size = left.size + right.size + 1 := rfl

@[simp] theorem size_leaf (v : Int) : (leaf v).size = 1 := rfl

theorem size_pos {t : Node} (live : t ≠ null) : 0 < t.size := by
  cases t with
  | null => exact absurd rfl live
  | node => simp

/-- A child's share in `count_nodes()`: its own nodes below it, plus itself. -/
theorem child_count (t : Node) : (if t = null then 0 else t.countNodes + 1) = t.size := by
  induction t with
  | null => rfl
  | node v left right ihl ihr => simp [countNodes, ihl, ihr]

theorem countNodes_add_one {t : Node} (live : t ≠ null) : t.countNodes + 1 = t.size := by
  simpa [live] using child_count t

theorem height_node (v : Int) (left right : Node) :
    (node v left right).height =
      max (if left = null then 0 else left.height + 1) (if right = null then 0 else right.height + 1) :=
  rfl

theorem size_insert {t : Node} (live : t ≠ null) (value : Nat) : (t.insert value).size = t.size + 1 := by
  induction t with
  | null => exact absurd rfl live
  | node v left right ihl ihr =>
      simp only [insert]
      split_ifs with l r <;> simp_all [size_pos] <;> omega

theorem insert_node (v : Int) (left right : Node) (value : Nat) :
    ∃ left' right', (node v left right).insert value = node v left' right' := by
  simp only [insert]
  split_ifs <;> exact ⟨_, _, rfl⟩

theorem insert_ne_null {t : Node} (live : t ≠ null) (value : Nat) : t.insert value ≠ null := by
  intro dead
  have := size_insert live value
  rw [dead, size_null] at this
  omega

/-! ### The balance invariant -/

/-- The shape `insert` keeps at every node: (a) a right child only next to a left child; (b) a left
subtree with as many nodes as the right one, or one more. -/
def Balanced : Node → Prop
  | null => True
  | node _ left right =>
      (right ≠ null → left ≠ null) ∧ (left.size = right.size ∨ left.size = right.size + 1) ∧
        left.Balanced ∧ right.Balanced

instance decideBalanced : (t : Node) → Decidable t.Balanced
  | null => isTrue trivial
  | node _ left right =>
      haveI := decideBalanced left
      haveI := decideBalanced right
      inferInstanceAs (Decidable ((_ → _) ∧ _ ∧ _ ∧ _))

@[simp] theorem balanced_null : null.Balanced := trivial

@[simp] theorem balanced_node (v : Int) (left right : Node) :
    (node v left right).Balanced ↔
      ((right ≠ null → left ≠ null) ∧ (left.size = right.size ∨ left.size = right.size + 1) ∧
        left.Balanced ∧ right.Balanced) := Iff.rfl

/-- In a balanced tree, descending by `count_nodes()` is descending by size. -/
theorem countNodes_le_iff {left right : Node} (liveLeft : left ≠ null) (liveRight : right ≠ null) :
    left.countNodes ≤ right.countNodes ↔ left.size ≤ right.size := by
  have := countNodes_add_one liveLeft
  have := countNodes_add_one liveRight
  omega

/-- **`insert` keeps the balance invariant.** -/
theorem insert_balanced {t : Node} (balanced : t.Balanced) (value : Nat) :
    (t.insert value).Balanced := by
  induction t with
  | null => trivial
  | node v left right ihl ihr =>
      obtain ⟨slots, sizes, bl, br⟩ := balanced
      simp only [insert]
      split_ifs with l r descend
      · subst l
        have : right = null := by by_contra r; exact slots r rfl
        subst this
        simp [leaf]
      · subst r
        have := size_pos l
        simp_all [leaf]
        omega
      · rw [countNodes_le_iff l r] at descend
        simp only [balanced_node, size_insert l]
        exact ⟨fun _ => insert_ne_null l value, by omega, ihl bl, br⟩
      · rw [countNodes_le_iff l r] at descend
        simp only [balanced_node, size_insert r]
        exact ⟨fun _ => l, by omega, bl, ihr br⟩

/-- `⌊log₂ (2 k + j)⌋ = ⌊log₂ k⌋ + 1` for `k ≥ 1` and a remainder bit `j`. -/
theorem log_two_double {k n : Nat} (positive : 0 < k) (half : n / 2 = k) :
    Nat.log 2 n = Nat.log 2 k + 1 := by
  rw [Nat.log_of_one_lt_of_le (by norm_num) (by omega), half]

/-- **A balanced tree of `n ≥ 1` nodes has height `⌊log₂ n⌋`.** -/
theorem height_eq_log {t : Node} (balanced : t.Balanced) (live : t ≠ null) :
    t.height = Nat.log 2 t.size := by
  induction t with
  | null => exact absurd rfl live
  | node v left right ihl ihr =>
      obtain ⟨slots, sizes, bl, br⟩ := balanced
      rw [height_node]
      by_cases l : left = null
      · have r : right = null := by by_contra r; exact slots r l
        simp [l, r]
      · have sl := size_pos l
        rw [if_neg l, ihl bl l, size_node,
          log_two_double sl (show (left.size + right.size + 1) / 2 = left.size by omega)]
        by_cases r : right = null
        · simp [r]
        · rw [if_neg r, ihr br r]
          exact max_eq_left (by simpa using Nat.log_mono_right (by omega))

/-- **The leaf `insert` adds to a balanced tree of `n` nodes lies at depth `⌊log₂ (n + 1)⌋`.** -/
theorem insertPath_length {t : Node} (balanced : t.Balanced) (live : t ≠ null) :
    t.insertPath.length = Nat.log 2 (t.size + 1) := by
  induction t with
  | null => exact absurd rfl live
  | node v left right ihl ihr =>
      obtain ⟨slots, sizes, bl, br⟩ := balanced
      simp only [insertPath]
      split_ifs with l r descend
      · have : right = null := by by_contra r; exact slots r l
        subst l this
        simp [Nat.log_of_one_lt_of_le]
      · subst r
        have : left.size = 1 := by have := size_pos l; simp at sizes; omega
        simp [this, Nat.log_of_one_lt_of_le]
      · rw [countNodes_le_iff l r] at descend
        rw [List.length_cons, ihl bl l, size_node,
          log_two_double (by omega) (show (left.size + right.size + 1 + 1) / 2 = left.size + 1 by omega)]
      · rw [countNodes_le_iff l r] at descend
        rw [List.length_cons, ihr br r, size_node,
          log_two_double (by omega) (show (left.size + right.size + 1 + 1) / 2 = right.size + 1 by omega)]

end Node

/-! ### The tree of an alphabet -/

/-- A `BinaryTree`: its root node. -/
structure BinaryTree where
  root : Node
  deriving Repr, DecidableEq

namespace BinaryTree

/-- `BinaryTree()`: a root node that holds no value yet. -/
def fresh : BinaryTree := ⟨.node invalid .null .null⟩

/-- `BinaryTree::insert(value)`: the first value goes into the root, every later one below it. -/
def insert (tree : BinaryTree) (value : Nat) : BinaryTree :=
  match tree.root with
  | .node v left right => if v = invalid then ⟨.node value left right⟩ else ⟨tree.root.insert value⟩
  | .null => tree

/-- The loop `for (auto&& letter : alphabet) binary_tree.insert(letter.value)` of `encode` and
`decode`. -/
def build (values : List Nat) : BinaryTree := values.foldl insert fresh

theorem insert_of_valid {v : Int} (valid : v ≠ invalid) (left right : Node) (value : Nat) :
    insert ⟨.node v left right⟩ value = ⟨(Node.node v left right).insert value⟩ := by
  simp [insert, valid]

/-- Once the root holds a symbol, `BinaryTree::insert` is `Node.insert` at the root. -/
theorem foldl_insert {v : Int} (valid : v ≠ invalid) (left right : Node) (values : List Nat) :
    values.foldl insert ⟨.node v left right⟩ = ⟨values.foldl Node.insert (.node v left right)⟩ := by
  induction values generalizing left right with
  | nil => rfl
  | cons value rest ih =>
      obtain ⟨left', right', step⟩ := Node.insert_node v left right value
      simp only [List.foldl_cons, insert_of_valid valid, step, ih]

theorem build_nil : build [] = fresh := rfl

theorem build_cons (value : Nat) (rest : List Nat) :
    build (value :: rest) = ⟨rest.foldl Node.insert (Node.leaf value)⟩ := by
  have valid : (value : Int) ≠ invalid := by simp only [invalid]; omega
  simp only [build, List.foldl_cons, show fresh.insert value = ⟨.node value .null .null⟩ by
    simp [fresh, insert, invalid]]
  exact foldl_insert valid _ _ rest

end BinaryTree

namespace Node

/-- Insertions into a live balanced tree keep it live and balanced, one node each. -/
theorem foldl_insert_balanced {t : Node} (live : t ≠ null) (balanced : t.Balanced) (values : List Nat) :
    values.foldl insert t ≠ null ∧ (values.foldl insert t).Balanced ∧
      (values.foldl insert t).size = t.size + values.length := by
  induction values generalizing t with
  | nil => simp [live, balanced]
  | cons value rest ih =>
      obtain ⟨live', balanced', size'⟩ :=
        ih (insert_ne_null live value) (insert_balanced balanced value)
      simp only [List.foldl_cons, size_insert live] at live' balanced' size' ⊢
      exact ⟨live', balanced', by simp [size']; omega⟩

end Node

namespace BinaryTree

/-- The tree of a non-empty list of values is live and balanced, with one node per value. -/
theorem build_cons_root (value : Nat) (rest : List Nat) :
    (build (value :: rest)).root ≠ .null ∧ (build (value :: rest)).root.Balanced ∧
      (build (value :: rest)).root.size = rest.length + 1 := by
  rw [build_cons]
  have live : Node.leaf value ≠ .null := by simp [Node.leaf]
  obtain ⟨live, balanced, size⟩ := Node.foldl_insert_balanced live (by simp [Node.leaf]) rest
  exact ⟨live, balanced, by simpa [Nat.add_comm] using size⟩

/-- **Every tree that insertions reach is balanced; after `n ≥ 1` insertions its height is
`⌊log₂ n⌋`, at most 8 for an alphabet of at most 256 letters.** -/
theorem build_balanced_height (values : List Nat) :
    (build values).root.Balanced ∧
      (values ≠ [] → (build values).root.height = Nat.log 2 values.length) ∧
      (values.length ≤ 256 → (build values).root.height ≤ 8) := by
  cases values with
  | nil => exact ⟨by decide, by simp, fun _ => by decide⟩
  | cons value rest =>
      obtain ⟨live, balanced, size⟩ := build_cons_root value rest
      have height : (build (value :: rest)).root.height = Nat.log 2 (value :: rest).length := by
        rw [Node.height_eq_log balanced live, size, List.length_cons]
      refine ⟨balanced, fun _ => height, fun few => ?_⟩
      rw [height, show 8 = Nat.log 2 (2 ^ 8) by rw [Nat.log_pow (by norm_num)]]
      exact Nat.log_mono_right few

end BinaryTree

end XLib.XKC
