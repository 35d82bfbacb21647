/-
**The pointer tree: parent links, `depth()` and `path_info` on the heap.**

The source's `BinaryTree` is a graph of `shared_node`s: each `Node` holds its value, its `left` and
`right` children and a `parent` back-reference, and `depth()` walks the `parent` chain up to
`nullptr`. The abstract model (`Node`, `pathInfoAt`) keeps no back-references and passes the depth
down the recursion instead. This module models the heap itself, as an arena of cells in order of
allocation, with `nullptr` as `none` and the root, `new Node()` of `BinaryTree()`, at cell 0, and
proves that the abstract model is what the pointer code computes.

* `Stored`: the cells that represent a subtree, each with the parent link the source writes;
  `insert_represents`: `insert` on the heap stores `BinaryTree.insert` of the stored tree, and
  `Built` carries that invariant for every heap that insertions build.
* `Built.root_parent`, `Built.parent_of_slot`, `Built.slot_of_parent`: the root has no parent, and
  every other node's parent is the node whose `left` or `right` slot holds it.
* `Built.depth_descend`: `depth()`'s walk ends and returns the number of edges from the root.
* `Built.pathInfo_eq`: `path_info` with `depth()` computes the abstract `pathInfoAt`;
  `Built.height_eq`, `Built.findValue_eq`: `height()` and `find_value` on the heap are the abstract
  ones, so every function of the tree that `encode` and `decode` call runs as the abstract model says.
* `build_parent_links`: the parent links, `depth()` and `path_info` for the heap of any run of
  insertions; `build_refines`: that heap represents the abstract tree of the same insertions, and
  `count_nodes()` (`Built.countNodes_eq`), `height()` and `find_value` on it are the abstract ones.
-/

import XKC.Path
import Mathlib.Data.List.Nodup

namespace XLib.XKC

/-- A `Node` object: its `parent`, `value`, `left` and `right`, each `shared_node` the index of a
cell, `none` for `nullptr`. The `root` back-reference is not modelled: nothing reads it. -/
structure Cell where
  parent : Option Nat
  value : Int
  left : Option Nat
  right : Option Nat
  deriving Repr, DecidableEq

namespace Heap

/-! ### The source's functions on the heap -/

/-- `if (child) { result += child->count_nodes(); result++; }`: a child's share of
`count_nodes()`, and in the same way of `height()`. -/
def childShare (count : Nat → Nat) : Option Nat → Nat
  | some child => count child + 1
  | none => 0

/-- `Node::count_nodes()` of the node at `node`. `fuel` bounds the recursion; a subtree of `n`
nodes needs `n` (`Stored.childShare_countNodes`). -/
def countNodes (cells : List Cell) : Nat → Nat → Nat
  | 0, _ => 0
  | fuel + 1, node =>
      match cells[node]? with
      | none => 0
      | some cell => childShare (countNodes cells fuel) cell.left + childShare (countNodes cells fuel) cell.right

/-- `Node::height()` of the node at `node`: the larger share of its children. `fuel` bounds the
recursion as for `countNodes`. -/
def height (cells : List Cell) : Nat → Nat → Nat
  | 0, _ => 0
  | fuel + 1, node =>
      match cells[node]? with
      | none => 0
      | some cell => max (childShare (height cells fuel) cell.left) (childShare (height cells fuel) cell.right)

/-- The `while (node)` loop of `Node::depth()`: one more edge and a step to `node->parent` until
`nullptr`; `none` when `fuel` runs out or a link leaves the heap. -/
def depthLoop (cells : List Cell) : Nat → Option Nat → Nat → Option Nat
  | _, none, result => some result
  | 0, some _, _ => none
  | fuel + 1, some node, result =>
      match cells[node]? with
      | some cell => depthLoop cells fuel cell.parent (result + 1)
      | none => none

/-- `Node::depth()` of the node at `node`: the walk from its `parent`, with a round per cell. -/
def depth (cells : List Cell) (node : Nat) : Option Nat :=
  match cells[node]? with
  | some cell => depthLoop cells cells.length cell.parent 0
  | none => none

/-- `BinaryTree::insert(parent, value)`: `new Node({ parent->root, parent, value })`, appended to the
heap, in the first empty slot of `parent`; otherwise the insertion goes on in the child whose
`count_nodes()` is not larger, the left one on a tie. `fuel` bounds the recursion and the
`count_nodes()` calls; `cells.length` is always enough. -/
def insertAt (cells : List Cell) (value : Nat) : Nat → Nat → List Cell
  | 0, _ => cells
  | fuel + 1, parent =>
      match cells[parent]? with
      | none => cells
      | some cell =>
          let node : Cell := ⟨some parent, value, none, none⟩
          match cell.left, cell.right with
          | none, _ => cells.set parent { cell with left := some cells.length } ++ [node]
          | some _, none => cells.set parent { cell with right := some cells.length } ++ [node]
          | some left, some right =>
              if countNodes cells fuel left ≤ countNodes cells fuel right then insertAt cells value fuel left
              else insertAt cells value fuel right

/-- `BinaryTree()`: the root, `new Node()`, with no parent, no children and the value `INVALID`. -/
def fresh : List Cell := [⟨none, invalid, none, none⟩]

/-- `BinaryTree::insert(value)`: the first value goes into the root, every later one below it. -/
def insert (cells : List Cell) (value : Nat) : List Cell :=
  match cells[0]? with
  | some root =>
      if root.value = invalid then cells.set 0 { root with value := value }
      else insertAt cells value cells.length 0
  | none => cells

/-- The insertion loop of `encode` and `decode`, on the heap. -/
def build (values : List Nat) : List Cell := values.foldl insert fresh

/-- `BinaryTree::path_info(pathInfo, parent, value)` on the heap, with `depth` from
`parent->depth()` and a `bit_path_t` of `size` bits; `none` when `fuel` runs out or a link leaves the
heap. -/
def pathInfoAt (cells : List Cell) (size value : Nat) :
    Nat → Option Nat → PathInfo → Option (Except Fault (Bool × PathInfo))
  | _, none, info => some (.ok (false, info))
  | 0, some _, _ => none
  | fuel + 1, some node, info =>
      match cells[node]?, depth cells node with
      | some cell, some depth =>
          if cell.value = value then some (.ok (true, { info with depth := depth }))
          else
            match pathInfoAt cells size value fuel cell.left info with
            | none => none
            | some (.error fault) => some (.error fault)
            | some (.ok (true, info)) => some do
                let info ← info.write size depth false
                return (true, info)
            | some (.ok (false, info)) =>
                match info.write size depth true with
                | .error fault => some (.error fault)
                | .ok info =>
                    match pathInfoAt cells size value fuel cell.right info with
                    | none => none
                    | some (.error fault) => some (.error fault)
                    | some (.ok (true, info)) => some do
                        let info ← info.write size depth true
                        return (true, info)
                    | some (.ok (false, info)) => some do
                        let info ← info.write size depth false
                        return (false, info)
      | _, _ => none

/-- `BinaryTree::path_info(pathInfo, value)`: the search from the root. -/
def pathInfo (cells : List Cell) (size : Nat) (info : PathInfo) (value : Nat) :
    Option (Except Fault (Bool × PathInfo)) :=
  pathInfoAt cells size value cells.length (some 0) info

/-- The loop of `find_value`: `steps` more turns from `current`, the turn at `depth` read from
`bit_path[depth]`; `none` where the source would step through `nullptr`. -/
def findValueLoop (cells : List Cell) (bitPath : Nat → Bool) : Nat → Nat → Option Nat → Option Nat
  | 0, _, current => current
  | _ + 1, _, none => none
  | steps + 1, depth, some node =>
      match cells[node]? with
      | some cell => findValueLoop cells bitPath steps (depth + 1) (if bitPath depth then cell.right else cell.left)
      | none => none

/-- `BinaryTree::find_value(pathInfo)`: the value of the node the turns lead to from the root;
`none` where the source would dereference `nullptr`. -/
def findValue (cells : List Cell) (info : PathInfo) : Option Int :=
  (findValueLoop cells info.bitPath info.depth 0 (some 0)).bind fun node => (cells[node]?).map Cell.value

/-- The cell that the turns `path` lead to from `link`, `false` for `left` and `true` for `right`;
`none` past a `nullptr`. -/
def descend (cells : List Cell) : Option Nat → List Bool → Option Nat
  | link, [] => link
  | none, _ :: _ => none
  | some node, turn :: path =>
      descend cells ((cells[node]?).bind fun cell => if turn then cell.right else cell.left) path

example : depth (build [3, 1, 2, 5, 7, 9]) 5 = some 2 := by decide

/-! ### The parent walk -/

/-- The walk of `depth()` from `link` reaches `nullptr` after `d` steps, given `d` rounds of fuel or
more. -/
def Walks (cells : List Cell) (link : Option Nat) (d : Nat) : Prop :=
  ∀ fuel result, d ≤ fuel → depthLoop cells fuel link result = some (result + d)

theorem walks_none (cells : List Cell) : Walks cells none 0 := fun fuel _ _ => by cases fuel <;> rfl

/-- One step up: a cell whose parent walks in `d` steps walks in `d + 1`. -/
theorem walks_some {cells : List Cell} {index : Nat} {cell : Cell} {d : Nat}
    (found : cells[index]? = some cell) (walks : Walks cells cell.parent d) :
    Walks cells (some index) (d + 1) := by
  intro fuel result enough
  obtain ⟨fuel, rfl⟩ : ∃ rest, fuel = rest + 1 := ⟨fuel - 1, by omega⟩
  simp only [depthLoop, found]
  rw [walks fuel (result + 1) (by omega), Nat.add_assoc, Nat.add_comm 1 d]

theorem descend_none (cells : List Cell) (path : List Bool) : descend cells none path = none := by
  cases path <;> rfl

/-! ### Cells that store a subtree -/

/-- `Stored cells parent link t used`: the `shared_node` `link` points to the subtree `t`, whose top
node has the back-reference `parent`; `used` lists the cells of the subtree in preorder. -/
inductive Stored (cells : List Cell) : Option Nat → Option Nat → Node → List Nat → Prop
  | null (parent : Option Nat) : Stored cells parent none .null []
  | node {parent : Option Nat} {index : Nat} {v : Int} {l r : Option Nat} {left right : Node}
      {usedLeft usedRight : List Nat} :
      cells[index]? = some ⟨parent, v, l, r⟩ →
      Stored cells (some index) l left usedLeft → Stored cells (some index) r right usedRight →
      Stored cells parent (some index) (.node v left right) (index :: (usedLeft ++ usedRight))

/-- Fuel for a live subtree's size leaves a round, with fuel for each child's size. -/
theorem exists_fuel {v : Int} {left right : Node} {fuel : Nat} (enough : (Node.node v left right).size ≤ fuel) :
    ∃ rest, fuel = rest + 1 ∧ left.size ≤ rest ∧ right.size ≤ rest := by
  simp only [Node.size_node] at enough
  exact ⟨fuel - 1, by omega, by omega, by omega⟩

namespace Stored

variable {cells : List Cell} {parent link : Option Nat} {t : Node} {used : List Nat}

/-- The top cell of a live subtree carries its parent link. -/
theorem top_parent_eq {index : Nat} (stored : Stored cells parent (some index) t used) :
    ∃ cell, cells[index]? = some cell ∧ cell.parent = parent := by
  cases stored with
  | node found _ _ => exact ⟨_, found, rfl⟩

theorem lt_length (stored : Stored cells parent link t used) : ∀ index ∈ used, index < cells.length := by
  induction stored with
  | null => simp
  | node found _ _ ihl ihr =>
      simp only [List.mem_cons, List.mem_append]
      rintro index (rfl | inLeft | inRight)
      · exact (List.getElem?_eq_some_iff.mp found).1
      · exact ihl index inLeft
      · exact ihr index inRight

theorem length_used (stored : Stored cells parent link t used) : used.length = t.size := by
  induction stored with
  | null => rfl
  | node _ _ _ ihl ihr => simp [ihl, ihr]

/-- The child a turn selects is stored below its parent. -/
theorem child {index : Nat} {l r : Option Nat} {left right : Node} {usedLeft usedRight : List Nat}
    (sl : Stored cells (some index) l left usedLeft) (sr : Stored cells (some index) r right usedRight)
    (turn : Bool) :
    Stored cells (some index) (if turn then r else l) (if turn then right else left)
      (if turn then usedRight else usedLeft) := by
  cases turn
  exacts [sl, sr]

/-- **Frame**: cells that agree on the cells of a subtree store it alike. -/
theorem frame {cells' : List Cell} (stored : Stored cells parent link t used)
    (same : ∀ index ∈ used, cells'[index]? = cells[index]?) : Stored cells' parent link t used := by
  induction stored with
  | null parent => exact .null parent
  | node found _ _ ihl ihr =>
      simp only [List.mem_cons, List.mem_append] at same
      exact .node ((same _ (Or.inl rfl)).trans found) (ihl fun index inside => same index (by simp [inside]))
        (ihr fun index inside => same index (by simp [inside]))

theorem live {index : Nat} (stored : Stored cells parent (some index) t used) : t ≠ .null := by
  cases stored with
  | node => exact Node.noConfusion

/-- **`count_nodes()` with enough fuel**: a child's share is the size of its subtree. -/
theorem childShare_countNodes (stored : Stored cells parent link t used) {fuel : Nat}
    (enough : t.size ≤ fuel) : childShare (countNodes cells fuel) link = t.size := by
  induction stored generalizing fuel with
  | null => rfl
  | node found _ _ ihl ihr =>
      obtain ⟨fuel, rfl, leftFuel, rightFuel⟩ := exists_fuel enough
      show countNodes cells (fuel + 1) _ + 1 = _
      simp only [countNodes, found, ihl leftFuel, ihr rightFuel, Node.size_node]

/-- **`height()` with enough fuel**: a child's share is one more than its subtree's height. -/
theorem childShare_height (stored : Stored cells parent link t used) {fuel : Nat}
    (enough : t.size ≤ fuel) : childShare (height cells fuel) link = if t = .null then 0 else t.height + 1 := by
  induction stored generalizing fuel with
  | null => rfl
  | node found _ _ ihl ihr =>
      obtain ⟨fuel, rfl, leftFuel, rightFuel⟩ := exists_fuel enough
      show height cells (fuel + 1) _ + 1 = _
      simp only [height, found, ihl leftFuel, ihr rightFuel, Node.height_node]
      rfl

/-- **`find_value` on the heap is the abstract walk**: from a stored subtree, the loop ends at the
cell of the node the abstract loop reaches, and reads its value. -/
theorem findValueLoop_eq (bitPath : Nat → Bool) (stored : Stored cells parent link t used) (steps depth : Nat) :
    (findValueLoop cells bitPath steps depth link).bind (fun node => (cells[node]?).map Cell.value) =
      match XKC.findValueLoop bitPath steps depth t with
      | some (.node v _ _) => some v
      | _ => none := by
  induction steps generalizing parent link t used depth with
  | zero =>
      cases stored with
      | null => rfl
      | node found _ _ => simp [findValueLoop, XKC.findValueLoop, found]
  | succ steps ih =>
      cases stored with
      | null => rfl
      | node found sl sr =>
          simp only [findValueLoop, XKC.findValueLoop, found]
          exact ih (Stored.child sl sr _) _

/-- Every cell of a subtree is its top or sits in a slot of one of its cells. -/
theorem eq_link_or_in_slot (stored : Stored cells parent link t used) :
    ∀ j ∈ used, link = some j ∨
      ∃ p ∈ used, ∃ cell, cells[p]? = some cell ∧ (cell.left = some j ∨ cell.right = some j) := by
  induction stored with
  | null => simp
  | node found _ _ ihl ihr =>
      simp only [List.mem_cons, List.mem_append]
      rintro j (rfl | inLeft | inRight)
      · exact Or.inl rfl
      · refine Or.inr ?_
        rcases ihl j inLeft with top | ⟨p, inside, cell, atP, holds⟩
        · exact ⟨_, Or.inl rfl, _, found, Or.inl top⟩
        · exact ⟨p, Or.inr (Or.inl inside), cell, atP, holds⟩
      · refine Or.inr ?_
        rcases ihr j inRight with top | ⟨p, inside, cell, atP, holds⟩
        · exact ⟨_, Or.inl rfl, _, found, Or.inr top⟩
        · exact ⟨p, Or.inr (Or.inr inside), cell, atP, holds⟩

/-- **A slot's node has the slot's owner as its parent.** -/
theorem parent_of_slot (stored : Stored cells parent link t used) :
    ∀ p ∈ used, ∀ cell, cells[p]? = some cell → ∀ j, cell.left = some j ∨ cell.right = some j →
      ∃ child, cells[j]? = some child ∧ child.parent = some p := by
  induction stored with
  | null => simp
  | node found sl sr ihl ihr =>
      simp only [List.mem_cons, List.mem_append]
      rintro p (rfl | inLeft | inRight) cell atP j holds
      · rw [found, Option.some.injEq] at atP
        subst atP
        rcases holds with rfl | rfl
        · exact sl.top_parent_eq
        · exact sr.top_parent_eq
      · exact ihl p inLeft cell atP j holds
      · exact ihr p inRight cell atP j holds

/-- Every cell of a subtree is reached from its top by some turns. -/
theorem exists_descend (stored : Stored cells parent link t used) :
    ∀ j ∈ used, ∃ path, descend cells link path = some j := by
  induction stored with
  | null => simp
  | node found _ _ ihl ihr =>
      simp only [List.mem_cons, List.mem_append]
      rintro j (rfl | inLeft | inRight)
      · exact ⟨[], rfl⟩
      · obtain ⟨path, reached⟩ := ihl j inLeft
        exact ⟨false :: path, by simpa [descend, found] using reached⟩
      · obtain ⟨path, reached⟩ := ihr j inRight
        exact ⟨true :: path, by simpa [descend, found] using reached⟩

/-- **The walk up from a cell counts the turns down to it**: a cell that `k` turns reach from the
top of a subtree whose parent walks in `d` steps has a parent that walks in `d + k` steps, and `k`
is less than the subtree's size. -/
theorem descend_walks {index : Nat} (stored : Stored cells parent (some index) t used) {d : Nat}
    (walks : Walks cells parent d) {path : List Bool} {j : Nat}
    (reached : descend cells (some index) path = some j) :
    ∃ cell, cells[j]? = some cell ∧ Walks cells cell.parent (d + path.length) ∧ path.length < t.size := by
  induction path generalizing parent index t used d with
  | nil =>
      cases reached
      cases stored with
      | node found _ _ => exact ⟨_, found, walks, by simp⟩
  | cons turn path ih =>
      cases stored with
      | @node _ _ v l r left right usedLeft usedRight found sl sr =>
          have child := Stored.child sl sr turn
          have smaller : (if turn then right else left).size < (Node.node v left right).size := by
            cases turn <;> simp <;> omega
          simp only [descend, found, Option.some_bind] at reached
          generalize (if turn then r else l) = link at child reached
          cases link with
          | none => simp [descend_none] at reached
          | some next =>
              obtain ⟨cell, atJ, up, short⟩ := ih child (walks_some found walks) reached
              exact ⟨cell, atJ, by simpa [Nat.add_assoc, Nat.add_comm 1] using up, by simp only [List.length_cons]; omega⟩

/-- **`path_info` on the heap is the abstract search**: over a subtree whose parent walks in `d`
steps, with fuel for its size and `depth()`'s rounds for its cells, `path_info` with
`parent->depth()` computes `pathInfoAt` at depth `d`. -/
theorem pathInfoAt_eq (size value : Nat) (stored : Stored cells parent link t used) {d : Nat}
    (walks : Walks cells parent d) {fuel : Nat} (enough : t.size ≤ fuel)
    (room : d + t.size ≤ cells.length) (info : PathInfo) :
    Heap.pathInfoAt cells size value fuel link info = some (XKC.pathInfoAt size value t d info) := by
  induction stored generalizing d fuel info with
  | null => cases fuel <;> rfl
  | @node _ index _ _ _ left right _ _ found _ _ ihl ihr =>
      obtain ⟨fuel, rfl, leftFuel, rightFuel⟩ := exists_fuel enough
      simp only [Node.size_node] at room
      have atDepth : depth cells index = some d := by
        simpa [depth, found] using walks cells.length 0 (by omega)
      simp only [Heap.pathInfoAt, found, atDepth, XKC.pathInfoAt]
      split_ifs
      · rfl
      · rw [ihl (walks_some found walks) leftFuel (by omega)]
        rcases XKC.pathInfoAt size value left (d + 1) info with fault | ⟨_ | _, info⟩
        · rfl
        · simp only [ok_bind, Bool.false_eq_true, if_false]
          cases info.write size d true with
          | error fault => rfl
          | ok info =>
              simp only [ok_bind]
              rw [ihr (walks_some found walks) rightFuel (by omega)]
              rcases XKC.pathInfoAt size value right (d + 1) info with fault | ⟨_ | _, info⟩ <;> rfl
        · rfl

end Stored

/-! ### Insertion keeps the representation -/

section Attach

variable {cells : List Cell} {index : Nat} (cell new : Cell)

/-- The heap after a slot write to cell `index` and the allocation of `new`. -/
theorem attach_self (inside : index < cells.length) : (cells.set index cell ++ [new])[index]? = some cell := by
  rw [List.getElem?_append_left (by simpa using inside), List.getElem?_set_self inside]

theorem attach_new : (cells.set index cell ++ [new])[cells.length]? = some new := by
  simp

theorem attach_frame {k : Nat} (small : k < cells.length) (other : k ≠ index) :
    (cells.set index cell ++ [new])[k]? = cells[k]? := by
  rw [List.getElem?_append_left (by simpa using small), List.getElem?_set_ne (Ne.symm other)]

/-- A subtree that does not use cell `index` survives a slot write there and an allocation. -/
theorem Stored.attach {parent link : Option Nat} {t : Node} {used : List Nat}
    (stored : Stored cells parent link t used) (apart : index ∉ used) :
    Stored (cells.set index cell ++ [new]) parent link t used :=
  stored.frame fun k inside => attach_frame cell new (stored.lt_length k inside) fun same => apart (same ▸ inside)

end Attach

/-- `count_nodes()` on two stored children compares their subtrees as the abstract `insert` does. -/
theorem Stored.countNodes_le_iff {parent : Option Nat} {a b : Nat} {left right : Node}
    {usedLeft usedRight : List Nat} {fuel : Nat} (sl : Stored cells parent (some a) left usedLeft)
    (sr : Stored cells parent (some b) right usedRight) (leftFuel : left.size ≤ fuel)
    (rightFuel : right.size ≤ fuel) :
    countNodes cells fuel a ≤ countNodes cells fuel b ↔ left.countNodes ≤ right.countNodes := by
  have shareLeft : countNodes cells fuel a + 1 = left.size := sl.childShare_countNodes leftFuel
  have shareRight : countNodes cells fuel b + 1 = right.size := sr.childShare_countNodes rightFuel
  have := Node.countNodes_add_one sl.live
  have := Node.countNodes_add_one sr.live
  omega

/-- What one insertion below the cell `index` does: the heap grows by one cell, no cell outside the
subtree's `used` cells changes, and the subtree `t` is stored over those cells and the new one. -/
def Inserted (cells cells' : List Cell) (parent : Option Nat) (index : Nat) (used : List Nat) (t : Node) :
    Prop :=
  cells'.length = cells.length + 1 ∧ (∀ k < cells.length, k ∉ used → cells'[k]? = cells[k]?) ∧
    ∃ used', Stored cells' parent (some index) t used' ∧ used'.Perm (cells.length :: used)

section Steps

variable {parent l r : Option Nat} {index : Nat} {v : Int} {left right : Node} {usedLeft usedRight : List Nat}

/-- A new leaf in the empty left slot. -/
theorem inserted_leftSlot (found : cells[index]? = some ⟨parent, v, none, r⟩)
    (sr : Stored cells (some index) r right usedRight) (apart : index ∉ usedRight) (value : Nat) :
    Inserted cells (cells.set index ⟨parent, v, some cells.length, r⟩ ++ [⟨some index, value, none, none⟩])
      parent index (index :: usedRight) (.node v (.leaf value) right) := by
  refine ⟨by simp, fun k small outside => attach_frame _ _ small fun same => outside (same ▸ List.mem_cons_self _ _),
    _, .node (attach_self _ _ (List.getElem?_eq_some_iff.mp found).1) (.node (attach_new _ _) (.null _) (.null _))
      (sr.attach _ _ apart), ?_⟩
  simpa using List.Perm.swap _ _ _

/-- A new leaf in the empty right slot, next to a live left child. -/
theorem inserted_rightSlot (found : cells[index]? = some ⟨parent, v, l, none⟩)
    (sl : Stored cells (some index) l left usedLeft) (apart : index ∉ usedLeft) (value : Nat) :
    Inserted cells (cells.set index ⟨parent, v, l, some cells.length⟩ ++ [⟨some index, value, none, none⟩])
      parent index (index :: usedLeft) (.node v left (.leaf value)) := by
  refine ⟨by simp, fun k small outside => attach_frame _ _ small fun same => outside (same ▸ List.mem_cons_self _ _),
    _, .node (attach_self _ _ (List.getElem?_eq_some_iff.mp found).1) (sl.attach _ _ apart)
      (.node (attach_new _ _) (.null _) (.null _)), ?_⟩
  simpa using ((List.perm_append_singleton _ _).cons index).trans (List.Perm.swap _ _ _)

/-- An insertion into the left child is one into the node. -/
theorem inserted_leftChild {cells' : List Cell} {a : Nat} {left' : Node}
    (found : cells[index]? = some ⟨parent, v, some a, r⟩) (sr : Stored cells (some index) r right usedRight)
    (distinct : (index :: (usedLeft ++ usedRight)).Nodup)
    (below : Inserted cells cells' (some index) a usedLeft left') :
    Inserted cells cells' parent index (index :: (usedLeft ++ usedRight)) (.node v left' right) := by
  obtain ⟨grown, same, used', stored', perm⟩ := below
  obtain ⟨notTop, -, -, apart⟩ :
      index ∉ usedLeft ++ usedRight ∧ usedLeft.Nodup ∧ usedRight.Nodup ∧ usedLeft.Disjoint usedRight := by
    simpa only [List.nodup_cons, List.nodup_append] using distinct
  refine ⟨grown, fun k small outside => same k small fun inLeft => outside (by simp [inLeft]), _,
    .node ((same index (List.getElem?_eq_some_iff.mp found).1 fun inLeft => notTop (by simp [inLeft])).trans found)
      stored' (sr.frame fun k inRight => same k (sr.lt_length k inRight) fun inLeft => apart inLeft inRight), ?_⟩
  exact ((perm.append_right usedRight).cons index).trans (List.Perm.swap _ _ _)

/-- An insertion into the right child is one into the node. -/
theorem inserted_rightChild {cells' : List Cell} {b : Nat} {right' : Node}
    (found : cells[index]? = some ⟨parent, v, l, some b⟩) (sl : Stored cells (some index) l left usedLeft)
    (distinct : (index :: (usedLeft ++ usedRight)).Nodup)
    (below : Inserted cells cells' (some index) b usedRight right') :
    Inserted cells cells' parent index (index :: (usedLeft ++ usedRight)) (.node v left right') := by
  obtain ⟨grown, same, used', stored', perm⟩ := below
  obtain ⟨notTop, -, -, apart⟩ :
      index ∉ usedLeft ++ usedRight ∧ usedLeft.Nodup ∧ usedRight.Nodup ∧ usedLeft.Disjoint usedRight := by
    simpa only [List.nodup_cons, List.nodup_append] using distinct
  refine ⟨grown, fun k small outside => same k small fun inRight => outside (by simp [inRight]), _,
    .node ((same index (List.getElem?_eq_some_iff.mp found).1 fun inRight => notTop (by simp [inRight])).trans found)
      (sl.frame fun k inLeft => same k (sl.lt_length k inLeft) fun inRight => apart inLeft inRight) stored', ?_⟩
  exact ((perm.append_left usedLeft).trans List.perm_middle |>.cons index).trans (List.Perm.swap _ _ _)

end Steps

/-- **One insertion below a node.** `insert(parent, value)` on the cells of a subtree, with fuel for
its size, is an `Inserted` step that stores the abstract `Node.insert`. -/
theorem insertAt_stored (value : Nat) {t : Node} :
    ∀ {parent : Option Nat} {index : Nat} {used : List Nat}, Stored cells parent (some index) t used →
      used.Nodup → ∀ {fuel : Nat}, t.size ≤ fuel →
      Inserted cells (insertAt cells value fuel index) parent index used (t.insert value) := by
  induction t with
  | null => intro _ _ _ stored; cases stored
  | node v left right ihl ihr =>
      intro parent index used stored distinct fuel enough
      cases stored with
      | @node _ _ _ l r _ _ usedLeft usedRight found sl sr =>
      obtain ⟨fuel, rfl, leftFuel, rightFuel⟩ := exists_fuel enough
      obtain ⟨notTop, nodupLeft, nodupRight, -⟩ :
          index ∉ usedLeft ++ usedRight ∧ usedLeft.Nodup ∧ usedRight.Nodup ∧ usedLeft.Disjoint usedRight := by
        simpa only [List.nodup_cons, List.nodup_append] using distinct
      cases l with
      | none =>
          cases sl
          simp only [insertAt, found, Node.insert, if_true]
          exact inserted_leftSlot found sr (fun inRight => notTop (List.mem_append_right _ inRight)) value
      | some a =>
          cases r with
          | none =>
              cases sr
              simp only [insertAt, found, Node.insert, sl.live, if_false, if_true, List.append_nil]
              exact inserted_rightSlot found sl (fun inLeft => notTop (List.mem_append_left _ inLeft)) value
          | some b =>
              have compare := sl.countNodes_le_iff sr leftFuel rightFuel
              simp only [insertAt, found, Node.insert, sl.live, sr.live, if_false]
              by_cases descend : left.countNodes ≤ right.countNodes
              · rw [if_pos (compare.mpr descend), if_pos descend]
                exact inserted_leftChild found sr distinct (ihl sl nodupLeft leftFuel)
              · rw [if_neg (mt compare.mp descend), if_neg descend]
                exact inserted_rightChild found sl distinct (ihr sr nodupRight rightFuel)

/-! ### Heaps that insertions build -/

/-- The heap stores `tree` from the root at cell 0, and every cell belongs to it exactly once. -/
def Represents (cells : List Cell) (tree : BinaryTree) : Prop :=
  ∃ used, Stored cells none (some 0) tree.root used ∧ used.Perm (List.range cells.length)

theorem represents_fresh : Represents fresh BinaryTree.fresh :=
  ⟨[0], .node rfl (.null _) (.null _), List.Perm.refl _⟩

/-- The stored tree has one node per cell. -/
theorem size_of_represents {cells : List Cell} {tree : BinaryTree} (represents : Represents cells tree) :
    tree.root.size = cells.length := by
  obtain ⟨used, stored, perm⟩ := represents
  rw [← stored.length_used, perm.length_eq, List.length_range]

/-- **`insert` on the heap stores `BinaryTree.insert`.** -/
theorem insert_represents {cells : List Cell} {tree : BinaryTree} (represents : Represents cells tree)
    (value : Nat) : Represents (insert cells value) (tree.insert value) := by
  have size := size_of_represents represents
  obtain ⟨used, stored, perm⟩ := represents
  obtain ⟨root⟩ := tree
  cases stored with
  | @node _ _ v l r left right usedLeft usedRight found sl sr =>
  by_cases blank : v = invalid
  · have notRoot : ∀ k ∈ usedLeft ++ usedRight, k ≠ 0 := fun k inside same =>
      (perm.nodup_iff.mpr (List.nodup_range _)).not_mem (same ▸ inside)
    have same : ∀ k ∈ usedLeft ++ usedRight,
        (cells.set 0 ⟨none, value, l, r⟩)[k]? = cells[k]? := fun k inside =>
      List.getElem?_set_ne (Ne.symm (notRoot k inside))
    simp only [insert, found, blank, if_true, BinaryTree.insert]
    exact ⟨_, .node (List.getElem?_set_self (List.getElem?_eq_some_iff.mp found).1)
      (sl.frame fun k inLeft => same k (List.mem_append_left _ inLeft))
      (sr.frame fun k inRight => same k (List.mem_append_right _ inRight)), by simpa using perm⟩
  · simp only [insert, found, blank, if_false, BinaryTree.insert_of_valid blank]
    obtain ⟨grown, -, used', stored', perm'⟩ :=
      insertAt_stored value (.node found sl sr) (perm.nodup_iff.mpr (List.nodup_range _)) (le_of_eq size)
    refine ⟨used', stored', ?_⟩
    rw [grown, List.range_succ]
    exact perm'.trans ((perm.cons _).trans (List.perm_append_singleton _ _).symm)

/-- A heap that `BinaryTree()` and a run of `insert` calls built, with the tree it stores. -/
structure Built where
  cells : List Cell
  tree : BinaryTree
  represents : Represents cells tree

namespace Built

def fresh : Built := ⟨Heap.fresh, BinaryTree.fresh, represents_fresh⟩

def insert (b : Built) (value : Nat) : Built :=
  ⟨Heap.insert b.cells value, b.tree.insert value, insert_represents b.represents value⟩

def build (values : List Nat) : Built := values.foldl insert fresh

theorem build_cells (values : List Nat) : (build values).cells = Heap.build values :=
  (List.foldl_hom cells insert Heap.insert values fresh fun _ _ => rfl).symm

theorem build_tree (values : List Nat) : (build values).tree = BinaryTree.build values :=
  (List.foldl_hom tree insert BinaryTree.insert values fresh fun _ _ => rfl).symm

variable (b : Built)

theorem exists_used : ∃ used, Stored b.cells none (some 0) b.tree.root used ∧
    ∀ j, j ∈ used ↔ j < b.cells.length := by
  obtain ⟨used, stored, perm⟩ := b.represents
  exact ⟨used, stored, fun j => by rw [perm.mem_iff, List.mem_range]⟩

/-- The root, cell 0, has no parent. -/
theorem root_parent : ∃ root, b.cells[0]? = some root ∧ root.parent = none := by
  obtain ⟨_, stored, _⟩ := b.exists_used
  exact stored.top_parent_eq

/-- **A node in a slot has the slot's owner as its parent.** -/
theorem parent_of_slot {p : Nat} {cell : Cell} (atP : b.cells[p]? = some cell) {j : Nat}
    (holds : cell.left = some j ∨ cell.right = some j) :
    ∃ child, b.cells[j]? = some child ∧ child.parent = some p := by
  obtain ⟨_, stored, members⟩ := b.exists_used
  exact stored.parent_of_slot p ((members p).mpr (List.getElem?_eq_some_iff.mp atP).1) cell atP j holds

/-- **Every node but the root sits in a slot of its parent.** -/
theorem slot_of_parent {j : Nat} (inside : j < b.cells.length) (notRoot : j ≠ 0) :
    ∃ p cell child, b.cells[p]? = some cell ∧ (cell.left = some j ∨ cell.right = some j) ∧
      b.cells[j]? = some child ∧ child.parent = some p := by
  obtain ⟨_, stored, members⟩ := b.exists_used
  rcases stored.eq_link_or_in_slot j ((members j).mpr inside) with top | ⟨p, -, cell, atP, holds⟩
  · exact absurd (Option.some.inj top).symm notRoot
  · obtain ⟨child, atJ, up⟩ := b.parent_of_slot atP holds
    exact ⟨p, cell, child, atP, holds, atJ, up⟩

/-- Every cell is reached from the root by some turns. -/
theorem exists_descend {j : Nat} (inside : j < b.cells.length) : ∃ path, descend b.cells (some 0) path = some j := by
  obtain ⟨_, stored, members⟩ := b.exists_used
  exact stored.exists_descend j ((members j).mpr inside)

/-- **`depth()` counts the edges from the root**: its walk up the parent chain ends, and returns
the number of turns that lead from the root down to the node. -/
theorem depth_descend {path : List Bool} {j : Nat} (reached : descend b.cells (some 0) path = some j) :
    depth b.cells j = some path.length := by
  obtain ⟨_, stored, _⟩ := b.exists_used
  obtain ⟨cell, atJ, walks, short⟩ := stored.descend_walks (walks_none _) reached
  rw [size_of_represents b.represents] at short
  simpa [depth, atJ] using walks b.cells.length 0 (by omega)

/-- **`path_info` with `depth()` is the abstract search from the root.** -/
theorem pathInfo_eq (size : Nat) (info : PathInfo) (value : Nat) :
    pathInfo b.cells size info value = some (b.tree.pathInfo size info value) := by
  obtain ⟨_, stored, _⟩ := b.exists_used
  have cells := size_of_represents b.represents
  exact stored.pathInfoAt_eq size value (walks_none _) cells.le (by omega) info

/-- `height()` of the root on the heap is the abstract height. -/
theorem height_eq : height b.cells b.cells.length 0 = b.tree.root.height := by
  obtain ⟨_, stored, _⟩ := b.exists_used
  have share := stored.childShare_height (size_of_represents b.represents).le
  simpa [childShare, stored.live] using share

/-- `count_nodes()` of the root on the heap is the abstract count. -/
theorem countNodes_eq : countNodes b.cells b.cells.length 0 = b.tree.root.countNodes := by
  obtain ⟨_, stored, _⟩ := b.exists_used
  have share := stored.childShare_countNodes (size_of_represents b.represents).le
  have count := Node.countNodes_add_one stored.live
  simp only [childShare] at share
  omega

/-- **`find_value` on the heap is the abstract `find_value`.** -/
theorem findValue_eq (info : PathInfo) : findValue b.cells info = b.tree.findValue info := by
  obtain ⟨_, stored, _⟩ := b.exists_used
  refine (stored.findValueLoop_eq info.bitPath info.depth 0).trans ?_
  unfold BinaryTree.findValue
  rcases XKC.findValueLoop info.bitPath info.depth 0 b.tree.root with _ | _ | _ <;> rfl

end Built

/-- **The parent links of every heap that insertions build.** After `BinaryTree()` and any run of
`insert` calls, the root has no parent; a node in a `left` or `right` slot has that slot's owner as
its parent, and every node but the root sits in such a slot. So `depth()`'s walk up the parent chain
ends, and returns the number of edges from the root down to the node; and `path_info`, which stores
`depth()` in `PathInfo.depth` and indexes `bit_path` with it, computes the abstract search, which
counts the edges on its way down. -/
theorem build_parent_links (values : List Nat) :
    let cells := build values
    (∃ root, cells[0]? = some root ∧ root.parent = none) ∧
      (∀ p (cell : Cell), cells[p]? = some cell → ∀ j, cell.left = some j ∨ cell.right = some j →
        ∃ child : Cell, cells[j]? = some child ∧ child.parent = some p) ∧
      (∀ j < cells.length, j ≠ 0 → ∃ (p : Nat) (cell child : Cell), cells[p]? = some cell ∧
        (cell.left = some j ∨ cell.right = some j) ∧ cells[j]? = some child ∧ child.parent = some p) ∧
      (∀ j < cells.length, ∃ path, descend cells (some 0) path = some j) ∧
      (∀ path j, descend cells (some 0) path = some j → depth cells j = some path.length) ∧
      ∀ size info value, pathInfo cells size info value =
        some ((BinaryTree.build values).pathInfo size info value) := by
  intro cells
  have built : cells = (Built.build values).cells := (Built.build_cells values).symm
  rw [built, ← Built.build_tree]
  exact ⟨Built.root_parent _, fun _ _ atP _ holds => Built.parent_of_slot _ atP holds,
    fun _ inside notRoot => Built.slot_of_parent _ inside notRoot, fun _ inside => Built.exists_descend _ inside,
    fun _ _ reached => Built.depth_descend _ reached, fun size info value => Built.pathInfo_eq _ size info value⟩

/-- **The heap refines the abstract tree.** After `BinaryTree()` and any run of `insert` calls, the
heap stores the abstract tree of the same insertions, one node per cell, and `count_nodes()`,
`height()` and `find_value` on it compute the abstract functions: the `height()` from which `encode`
takes `max_depth_bits`, and the `find_value` that every round of `decode` calls. -/
theorem build_refines (values : List Nat) :
    Represents (build values) (BinaryTree.build values) ∧
      countNodes (build values) (build values).length 0 = (BinaryTree.build values).root.countNodes ∧
      height (build values) (build values).length 0 = (BinaryTree.build values).root.height ∧
      ∀ info, findValue (build values) info = (BinaryTree.build values).findValue info := by
  rw [← Built.build_cells, ← Built.build_tree]
  exact ⟨(Built.build values).represents, Built.countNodes_eq _, Built.height_eq _, Built.findValue_eq _⟩

end Heap

end XLib.XKC
