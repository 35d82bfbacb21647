/-
**Paths in the tree: `path_info` and `find_value`.**

`Node.pathTo` says what a path is: the left (`false`) and right (`true`) turns from the root to the
first node, in preorder, that holds a value. `BinaryTree::path_info` finds it by a depth-first
search that writes `bit_path[depth]` on the way down and clears it again when a subtree fails, and
`BinaryTree::find_value` walks a `PathInfo` back down the tree. `bit_path` is a `std::bitset` of
`numeric_limits<alphabet_T>::max() + 1` bits, and a write past its end is a `Fault`.

* `pathInfoAt_eq`: with room in `bit_path` for the subtree, from a `PathInfo` whose bits at and
  below the current depth are clear, the search returns `true` with exactly the bits of `pathTo` and
  its length as the depth, or `false` with the `PathInfo` unchanged: a failed subtree leaves no
  residue.
* `pathInfoAt_fault`: the search stops only at a write past the end of `bit_path`.
* `findValueLoop_pathTo`: walking the turns of `pathTo` reaches the node that holds the value.
* `pathTo_insert_of_ne`, `pathTo_insert_self`: an insertion moves no node, and the new leaf is
  reached along `insertPath`.
* `pathInfo_build`: on every tree that insertions build, with room in `bit_path` for the tree,
  `path_info` from a zeroed `PathInfo` returns and finds exactly the inserted values, with the node's path, no residue, and `find_value`
  returning the value.
-/

import XKC.Tree
import Mathlib.Logic.Function.Basic
import Mathlib.Data.List.Nodup

namespace XLib.XKC

namespace Node

/-- The turns from the root to the first node, in preorder, that holds `value`. -/
def pathTo : Node → Int → Option (List Bool)
  | null, _ => none
  | node v left right, value =>
      if v = value then some []
      else match left.pathTo value with
        | some path => some (false :: path)
        | none => (right.pathTo value).map (true :: ·)

/-- The values of a subtree in preorder. -/
def values : Node → List Int
  | null => []
  | node v left right => v :: (left.values ++ right.values)

@[simp] theorem values_leaf (v : Int) : (leaf v).values = [v] := rfl

theorem pathTo_eq_none_iff (t : Node) (value : Int) : t.pathTo value = none ↔ value ∉ t.values := by
  induction t with
  | null => simp [pathTo, values]
  | node v left right ihl ihr =>
      simp only [pathTo, values, List.mem_cons, List.mem_append, not_or]
      split_ifs with found
      · simp [found]
      · rw [← ihl, ← ihr]
        cases left.pathTo value <;> cases right.pathTo value <;> simp [Ne.symm found]

theorem mem_values_insert {t : Node} (live : t ≠ null) (value : Nat) (x : Int) :
    x ∈ (t.insert value).values ↔ x = value ∨ x ∈ t.values := by
  induction t with
  | null => exact absurd rfl live
  | node v left right ihl ihr =>
      simp only [insert]
      split_ifs with l r
      · subst l; simp [values, or_left_comm]
      · subst r; simp [values, or_left_comm, or_comm]
      · simp [values, ihl l, or_assoc, or_left_comm]
      · simp [values, ihr r, or_assoc, or_left_comm]

/-- An insertion adds its value to the preorder values and keeps every other one. -/
theorem values_insert_perm {t : Node} (live : t ≠ null) (value : Nat) :
    (t.insert value).values.Perm ((value : Int) :: t.values) := by
  induction t with
  | null => exact absurd rfl live
  | node v left right ihl ihr =>
      simp only [insert]
      split_ifs with l r
      · subst l; exact List.Perm.swap _ _ _
      · subst r
        simpa [values] using ((List.perm_append_singleton _ _).cons v).trans (List.Perm.swap _ _ _)
      · exact (((ihl l).append_right _).cons v).trans (List.Perm.swap _ _ _)
      · exact (((ihr r).append_left _).trans List.perm_middle |>.cons v).trans (List.Perm.swap _ _ _)

/-- **An insertion moves no node**: a value other than the new one keeps its path. -/
theorem pathTo_insert_of_ne (t : Node) {value : Nat} {x : Int} (other : x ≠ value) :
    (t.insert value).pathTo x = t.pathTo x := by
  induction t with
  | null => rfl
  | node v left right ihl ihr =>
      simp only [insert]
      split_ifs with l r <;> simp_all [pathTo, leaf, Ne.symm other]

/-- **The new leaf is reached along `insertPath`.** -/
theorem pathTo_insert_self {t : Node} (live : t ≠ null) {value : Nat} (absent : (value : Int) ∉ t.values) :
    (t.insert value).pathTo value = some t.insertPath := by
  induction t with
  | null => exact absurd rfl live
  | node v left right ihl ihr =>
      simp only [values, List.mem_cons, List.mem_append, not_or] at absent
      obtain ⟨root, inLeft, inRight⟩ := absent
      have missLeft := (pathTo_eq_none_iff left value).mpr inLeft
      simp only [insert, insertPath]
      split_ifs with l r
      · simp [pathTo, leaf, Ne.symm root]
      · simp [pathTo, leaf, Ne.symm root, missLeft]
      · simp [pathTo, Ne.symm root, ihl l inLeft]
      · simp [pathTo, Ne.symm root, missLeft, ihr r inRight]

/-- A node's path is no longer than the tree is high. -/
theorem length_le_height_of_pathTo {t : Node} {x : Int} {path : List Bool}
    (found : t.pathTo x = some path) : path.length ≤ t.height := by
  induction t generalizing path with
  | null => simp [pathTo] at found
  | node v left right ihl ihr =>
      have liveOf : ∀ {child : Node} {rest : List Bool}, child.pathTo x = some rest → child ≠ null :=
        fun {child} _ found dead => by subst dead; simp [pathTo] at found
      simp only [pathTo] at found
      split_ifs at found with here
      · cases found; simp
      · cases hl : left.pathTo x with
        | some rest =>
            simp only [hl, Option.some.injEq] at found
            subst found
            simp only [height_node, if_neg (liveOf hl), List.length_cons]
            exact le_max_of_le_left (by have := ihl hl; omega)
        | none =>
            obtain ⟨rest, hr, rfl⟩ := Option.map_eq_some'.mp (by simpa [hl] using found)
            simp only [height_node, if_neg (liveOf hr), List.length_cons]
            exact le_max_of_le_right (by have := ihr hr; omega)

end Node

/-! ### Faults -/

/-- Where the model of `encode` or `decode` stops: the source checks nothing, and these are the
places where the C++ program reads outside its buffer, dereferences a null node, or performs an
operation the standard leaves undefined. -/
inductive Fault where
  /-- A read of `data[index]` outside the buffer. -/
  | readOutOfBounds (index : Int)
  /-- `find_value` stepping through, or reading, a null node. -/
  | nullNode
  /-- `bit << depth_bit` on an `int` with a shift of 32 or more. -/
  | shiftOutOfRange (depthBit : Nat)
  /-- `bit_path[index]` past the bitset's size, in `path_info` or in `decode`'s path loop. -/
  | bitPathOutOfRange (index : Nat)
  /-- The `while` loop of `decode` has not ended within its fuel. -/
  | outOfFuel
  deriving Repr, DecidableEq

/-- Results of the model compare by value, so that its runs can be evaluated. -/
instance exceptDecidableEq {ε α : Type} [DecidableEq ε] [DecidableEq α] : DecidableEq (Except ε α)
  | .error a, .error b => if same : a = b then isTrue (same ▸ rfl) else isFalse fun e => same (Except.error.inj e)
  | .ok a, .ok b => if same : a = b then isTrue (same ▸ rfl) else isFalse fun e => same (Except.ok.inj e)
  | .error _, .ok _ => isFalse Except.noConfusion
  | .ok _, .error _ => isFalse Except.noConfusion

@[simp] theorem pure_eq_ok {ε α : Type} (value : α) : (pure value : Except ε α) = .ok value := rfl

@[simp] theorem ok_bind {ε α β : Type} (value : α) (next : α → Except ε β) :
    (Except.ok value >>= next) = next value := rfl

@[simp] theorem error_bind {ε α β : Type} (fault : ε) (next : α → Except ε β) :
    (Except.error fault >>= next) = .error fault := rfl

/-- A `bind` that returned: its first computation returned, and so did the rest. -/
theorem bind_eq_ok {ε α β : Type} {first : Except ε α} {next : α → Except ε β} {result : β}
    (done : (first >>= next) = .ok result) : ∃ value, first = .ok value ∧ next value = .ok result := by
  cases first with
  | error fault => cases done
  | ok value => exact ⟨value, rfl, done⟩

/-- Every fault of a `bind` is a fault of its first computation or of the rest. -/
theorem bind_error_of {ε α β : Type} {P : ε → Prop} {first : Except ε α} {next : α → Except ε β}
    (ofFirst : ∀ fault, first = .error fault → P fault)
    (ofNext : ∀ value fault, next value = .error fault → P fault) {fault : ε}
    (failed : (first >>= next) = .error fault) : P fault := by
  cases first with
  | error other => exact ofFirst _ (congrArg Except.error (Except.error.inj failed))
  | ok value => exact ofNext value _ failed

/-- A `bind` that failed: its first computation failed, or it returned and the rest failed. -/
theorem bind_eq_error {ε α β : Type} {first : Except ε α} {next : α → Except ε β} {fault : ε}
    (failed : (first >>= next) = .error fault) :
    first = .error fault ∨ ∃ value, first = .ok value ∧ next value = .error fault := by
  cases first with
  | error other => exact Or.inl (congrArg Except.error (Except.error.inj failed))
  | ok value => exact Or.inr ⟨value, rfl, failed⟩

/-! ### `PathInfo` and the depth-first search -/

/-- `PathInfo`: the `bit_path` bitset, read as a function of the bit index, and the `depth`. The
bitset's size (`bitPathSize`) bounds the indices that `path_info` and `decode` write. -/
@[ext] structure PathInfo where
  bitPath : Nat → Bool
  depth : Nat

/-- The size of `bit_path_t = bitset<numeric_limits<alphabet_T>::max() + 1>` for
`sizeof(alphabet_T) = width`: the sum is an `int` for one and two bytes and wraps to 0 in
`unsigned` for four. -/
def bitPathSize (width : Nat) : Nat := 2 ^ (8 * width) % 2 ^ 32

example : bitPathSize 1 = 256 ∧ bitPathSize 2 = 65536 ∧ bitPathSize 4 = 0 := by decide

namespace PathInfo

/-- A zero-initialised `PathInfo`: `bit_path = 0`, `depth = 0`. -/
def zero : PathInfo := ⟨fun _ => false, 0⟩

/-- `pathInfo.bit_path[index] = bit`. -/
def setBit (info : PathInfo) (index : Nat) (bit : Bool) : PathInfo :=
  { info with bitPath := Function.update info.bitPath index bit }

/-- `bit_path[index] = bit` on a `bit_path_t` of `size` bits: `std::bitset::operator[]` checks
nothing, and an index past the end is a fault. -/
def write (info : PathInfo) (size index : Nat) (bit : Bool) : Except Fault PathInfo :=
  if size ≤ index then .error (.bitPathOutOfRange index) else .ok (info.setBit index bit)

/-- What a successful search from depth `depth` along `path` leaves: the bits above `depth`
untouched, the turns of `path` from `depth` on, every later bit clear, and the full depth. -/
def follow (info : PathInfo) (depth : Nat) (path : List Bool) : PathInfo :=
  ⟨fun index => if index < depth then info.bitPath index else path.getD (index - depth) false,
    depth + path.length⟩

@[simp] theorem setBit_depth (info : PathInfo) (index : Nat) (bit : Bool) :
    (info.setBit index bit).depth = info.depth := rfl

theorem setBit_bitPath (info : PathInfo) (index : Nat) (bit : Bool) (other : Nat) :
    (info.setBit index bit).bitPath other = if other = index then bit else info.bitPath other := by
  simp [setBit, Function.update_apply]

theorem write_of_lt {size index : Nat} (info : PathInfo) (bit : Bool) (inside : index < size) :
    info.write size index bit = .ok (info.setBit index bit) :=
  if_neg (Nat.not_le.mpr inside)

theorem write_eq_error {info : PathInfo} {size index : Nat} {bit : Bool} {fault : Fault}
    (failed : info.write size index bit = .error fault) :
    size ≤ index ∧ fault = .bitPathOutOfRange index := by
  unfold write at failed
  split_ifs at failed with past
  · exact ⟨past, (Except.error.inj failed).symm⟩

/-- Clearing a bit that was set over a clear one restores the `PathInfo`. -/
theorem setBit_restore (info : PathInfo) (index : Nat) (clear : info.bitPath index = false) :
    (info.setBit index true).setBit index false = info := by
  ext other
  · simp only [setBit_bitPath]
    split_ifs with here <;> simp [here, clear]
  · rfl

/-- One more turn in front of a followed path. -/
theorem follow_cons (info start : PathInfo) (depth : Nat) (bit : Bool) (path : List Bool)
    (agree : ∀ index, index < depth → start.bitPath index = info.bitPath index) :
    (start.follow (depth + 1) path).setBit depth bit = info.follow depth (bit :: path) := by
  ext index
  · simp only [setBit_bitPath, follow]
    by_cases here : index = depth
    · subst here
      simp only [if_true, Nat.lt_irrefl, if_false, Nat.sub_self, List.getD_cons_zero]
    · by_cases above : index < depth
      · rw [if_neg here, if_pos (by omega), if_pos above, agree index above]
      · rw [if_neg here, if_neg (by omega), if_neg above, show index - depth = index - (depth + 1) + 1 by omega,
          List.getD_cons_succ]
  · simp only [follow, setBit_depth, List.length_cons]
    omega

end PathInfo

/-- `BinaryTree::path_info(pathInfo, parent, value)` on a `bit_path_t` of `size` bits. `depth`
stands for `parent->depth()`, the number of edges from the root to `parent`; every node the search
passes without finding the value writes `bit_path[depth]`. -/
def pathInfoAt (size value : Nat) : Node → Nat → PathInfo → Except Fault (Bool × PathInfo)
  | .null, _, info => .ok (false, info)
  | .node v left right, depth, info =>
      if v = value then .ok (true, { info with depth := depth })
      else do
        let (foundLeft, info) ← pathInfoAt size value left (depth + 1) info
        if foundLeft then
          let info ← info.write size depth false
          return (true, info)
        else
          let info ← info.write size depth true
          let (foundRight, info) ← pathInfoAt size value right (depth + 1) info
          if foundRight then
            let info ← info.write size depth true
            return (true, info)
          else
            let info ← info.write size depth false
            return (foundRight, info)

/-- Room in `bit_path` for a subtree at depth `depth` is room for its children one level down. -/
theorem room_children {size depth : Nat} {v : Int} {left right : Node}
    (room : Node.node v left right ≠ .null → depth + (Node.node v left right).height < size) :
    depth < size ∧ (left ≠ .null → depth + 1 + left.height < size) ∧
      (right ≠ .null → depth + 1 + right.height < size) := by
  have total := room Node.noConfusion
  rw [Node.height_node] at total
  exact ⟨by omega, fun live => by rw [if_neg live] at total; omega,
    fun live => by rw [if_neg live] at total; omega⟩

/-- **The search, with room in `bit_path` for the subtree and bits clear at and below its depth,
returns the bits of `pathTo` or leaves the `PathInfo` as it was.** -/
theorem pathInfoAt_eq (size value : Nat) (t : Node) (depth : Nat) (info : PathInfo)
    (room : t ≠ .null → depth + t.height < size)
    (clear : ∀ index, depth ≤ index → info.bitPath index = false) :
    pathInfoAt size value t depth info =
      .ok (match t.pathTo value with
        | some path => (true, info.follow depth path)
        | none => (false, info)) := by
  induction t generalizing depth info with
  | null => rfl
  | node v left right ihl ihr =>
      obtain ⟨inside, roomLeft, roomRight⟩ := room_children room
      simp only [pathInfoAt, Node.pathTo]
      split_ifs with found
      · simp only [PathInfo.follow, List.length_nil, Nat.add_zero, List.getD_nil]
        congr
        funext index
        by_cases above : index < depth
        · simp [above]
        · simp [above, clear index (by omega)]
      · rw [ihl (depth + 1) info roomLeft fun index later => clear index (by omega)]
        cases hl : left.pathTo value with
        | some path =>
            simp [PathInfo.write_of_lt _ _ inside, PathInfo.follow_cons info info depth false path fun _ _ => rfl]
        | none =>
            have marked : ∀ index, depth + 1 ≤ index → (info.setBit depth true).bitPath index = false :=
              fun index later => by rw [PathInfo.setBit_bitPath, if_neg (by omega), clear index (by omega)]
            simp only [ok_bind, PathInfo.write_of_lt _ _ inside, Bool.false_eq_true, if_false]
            rw [ihr (depth + 1) _ roomRight marked]
            cases hr : right.pathTo value with
            | some path =>
                simp [PathInfo.write_of_lt _ _ inside, PathInfo.follow_cons info (info.setBit depth true) depth true path
                  fun index above => by rw [PathInfo.setBit_bitPath, if_neg (by omega)]]
            | none => simp [PathInfo.write_of_lt _ _ inside, PathInfo.setBit_restore info depth (clear depth le_rfl)]

/-- The search stops only at a write past the end of `bit_path`. -/
theorem pathInfoAt_fault {size value : Nat} {t : Node} {depth : Nat} {info : PathInfo} {fault : Fault}
    (failed : pathInfoAt size value t depth info = .error fault) :
    ∃ index, size ≤ index ∧ fault = .bitPathOutOfRange index := by
  have written : ∀ (info : PathInfo) (index : Nat) (bit : Bool) fault, info.write size index bit = .error fault →
      ∃ index, size ≤ index ∧ fault = .bitPathOutOfRange index :=
    fun _ index _ _ failed => ⟨index, PathInfo.write_eq_error failed⟩
  induction t generalizing depth info fault with
  | null => cases failed
  | node v left right ihl ihr =>
      simp only [pathInfoAt] at failed
      split_ifs at failed
      refine bind_error_of (fun _ => ihl) (fun ⟨foundLeft, info⟩ fault failed => ?_) failed
      split at failed
      · exact bind_error_of (written _ _ _) (fun _ _ returned => by cases returned) failed
      · refine bind_error_of (written _ _ _) (fun info fault failed => ?_) failed
        refine bind_error_of (fun _ => ihr) (fun ⟨foundRight, info⟩ fault failed => ?_) failed
        split at failed <;> exact bind_error_of (written _ _ _) (fun _ _ returned => by cases returned) failed

/-- **With no bit in `bit_path` the search returns only from the node that holds the value**: passing
any other node writes `bit_path`. -/
theorem pathInfoAt_no_room {value : Nat} {v : Int} {left right : Node} {depth : Nat} {info : PathInfo}
    {result : Bool × PathInfo} (done : pathInfoAt 0 value (.node v left right) depth info = .ok result) :
    v = value := by
  by_contra missed
  simp only [pathInfoAt, if_neg missed] at done
  obtain ⟨⟨foundLeft, info⟩, -, done⟩ := bind_eq_ok done
  cases foundLeft <;> simp [PathInfo.write] at done

/-! ### `find_value` -/

/-- The loop of `find_value`: `steps` more turns from `current`, the turn at `depth` read from
`bit_path[depth]`; `none` where the source would step through a null node. -/
def findValueLoop (bitPath : Nat → Bool) : Nat → Nat → Node → Option Node
  | 0, _, current => some current
  | _ + 1, _, .null => none
  | steps + 1, depth, .node _ left right =>
      findValueLoop bitPath steps (depth + 1) (if bitPath depth then right else left)

/-- **Walking the turns of `pathTo` reaches the node that holds the value.** -/
theorem findValueLoop_pathTo (bitPath : Nat → Bool) (t : Node) (x : Int) (path : List Bool)
    (depth : Nat) (found : t.pathTo x = some path)
    (turns : ∀ index, index < path.length → bitPath (depth + index) = path.getD index false) :
    ∃ left right, findValueLoop bitPath path.length depth t = some (.node x left right) := by
  induction t generalizing path depth with
  | null => simp [Node.pathTo] at found
  | node v left right ihl ihr =>
      simp only [Node.pathTo] at found
      split_ifs at found with here
      · cases found
        exact ⟨left, right, by simp [findValueLoop, here]⟩
      · have later : ∀ rest : List Bool, ∀ bit, path = bit :: rest →
            ∀ index, index < rest.length → bitPath (depth + 1 + index) = rest.getD index false :=
          fun rest bit shape index inside => by
            have := turns (index + 1) (by simp [shape]; omega)
            simpa [shape, Nat.add_assoc, Nat.add_comm 1] using this
        cases hl : left.pathTo x with
        | some rest =>
            simp only [hl, Option.some.injEq] at found
            subst found
            have turn : bitPath depth = false := by simpa using turns 0 (by simp)
            simpa [findValueLoop, turn] using ihl rest (depth + 1) hl (later rest false rfl)
        | none =>
            simp only [hl, Option.map_eq_some'] at found
            obtain ⟨rest, hr, shape⟩ := found
            subst shape
            have turn : bitPath depth = true := by simpa using turns 0 (by simp)
            simpa [findValueLoop, turn] using ihr rest (depth + 1) hr (later rest true rfl)

/-- The node a walk reaches holds one of the tree's values. -/
theorem mem_values_of_findValueLoop (bitPath : Nat → Bool) {steps depth : Nat} {t : Node} {v : Int}
    {left right : Node} (reached : findValueLoop bitPath steps depth t = some (.node v left right)) :
    v ∈ t.values := by
  induction steps generalizing depth t with
  | zero =>
      simp only [findValueLoop, Option.some.injEq] at reached
      subst reached
      exact List.mem_cons_self _ _
  | succ steps ih =>
      cases t with
      | null => simp [findValueLoop] at reached
      | node w l r =>
          have inChild := ih reached
          simp only [Node.values, List.mem_cons, List.mem_append]
          split at inChild
          exacts [Or.inr (Or.inr inChild), Or.inr (Or.inl inChild)]

/-- **In a tree of distinct values, the turns of a walk are the path of the value it reaches**: the
converse of `findValueLoop_pathTo`. -/
theorem pathTo_of_findValueLoop {t : Node} (distinct : t.values.Nodup) (bitPath : Nat → Bool)
    (path : List Bool) {depth : Nat}
    (turns : ∀ index, index < path.length → bitPath (depth + index) = path.getD index false) {v : Int}
    {left right : Node} (reached : findValueLoop bitPath path.length depth t = some (.node v left right)) :
    t.pathTo v = some path := by
  induction path generalizing t depth with
  | nil =>
      simp only [List.length_nil, findValueLoop, Option.some.injEq] at reached
      subst reached
      simp [Node.pathTo]
  | cons bit path ih =>
      cases t with
      | null => simp [findValueLoop] at reached
      | node w l r =>
          have first : bitPath depth = bit := by simpa using turns 0 (by simp)
          have later : ∀ index, index < path.length → bitPath (depth + 1 + index) = path.getD index false :=
            fun index inside => by
              simpa [Nat.add_assoc, Nat.add_comm 1] using turns (index + 1) (by simp; omega)
          simp only [List.length_cons, findValueLoop, first] at reached
          have inChild := mem_values_of_findValueLoop _ reached
          simp only [Node.values, List.nodup_cons, List.nodup_append, List.mem_append, not_or] at distinct
          obtain ⟨⟨notLeft, notRight⟩, nodupLeft, nodupRight, apart⟩ := distinct
          cases bit with
          | false =>
              have found := ih nodupLeft later reached
              have other : w ≠ v := fun same => notLeft (same ▸ inChild)
              simp [Node.pathTo, other, found]
          | true =>
              have found := ih nodupRight later reached
              have other : w ≠ v := fun same => notRight (same ▸ inChild)
              have missLeft : l.pathTo v = none := (Node.pathTo_eq_none_iff l v).mpr fun inLeft => apart inLeft inChild
              simp [Node.pathTo, other, missLeft, found]

namespace BinaryTree

/-- `BinaryTree::path_info(pathInfo, value)`: the search from the root, at depth 0. -/
def pathInfo (tree : BinaryTree) (size : Nat) (info : PathInfo) (value : Nat) :
    Except Fault (Bool × PathInfo) :=
  pathInfoAt size value tree.root 0 info

/-- `BinaryTree::find_value(pathInfo)`: the value of the node `pathInfo` leads to; `none` where the
source would dereference a null node. -/
def findValue (tree : BinaryTree) (info : PathInfo) : Option Int :=
  match findValueLoop info.bitPath info.depth 0 tree.root with
  | some (.node v _ _) => some v
  | _ => none

theorem mem_values_foldl_insert {t : Node} (live : t ≠ .null) (rest : List Nat) (x : Int) :
    x ∈ (rest.foldl Node.insert t).values ↔ x ∈ t.values ∨ ∃ v ∈ rest, x = v := by
  induction rest generalizing t with
  | nil => simp
  | cons value rest ih =>
      rw [List.foldl_cons, ih (Node.insert_ne_null live value), Node.mem_values_insert live]
      simp only [List.mem_cons, exists_eq_or_imp, or_assoc, or_left_comm]

/-- A symbol is in the tree of an alphabet exactly when it was inserted. -/
theorem mem_build_values (values : List Nat) (v : Nat) :
    (v : Int) ∈ (build values).root.values ↔ v ∈ values := by
  cases values with
  | nil => simp [build_nil, fresh, Node.values, invalid]
  | cons value rest =>
      rw [build_cons, mem_values_foldl_insert (by simp [Node.leaf])]
      simp [eq_comm]

theorem values_foldl_insert_perm {t : Node} (live : t ≠ .null) (rest : List Nat) :
    (rest.foldl Node.insert t).values.Perm (rest.map Nat.cast ++ t.values) := by
  induction rest generalizing t with
  | nil => rfl
  | cons value rest ih =>
      rw [List.foldl_cons]
      exact (ih (Node.insert_ne_null live value)).trans
        (((Node.values_insert_perm live value).append_left _).trans List.perm_middle)

/-- The tree of a duplicate-free alphabet holds distinct values. -/
theorem nodup_build_values {values : List Nat} (distinct : values.Nodup) : (build values).root.values.Nodup := by
  cases values with
  | nil => simp [build_nil, fresh, Node.values]
  | cons value rest =>
      rw [build_cons]
      refine ((values_foldl_insert_perm (by simp [Node.leaf]) rest).nodup_iff).mpr ?_
      have cast : ((value :: rest).map (Nat.cast : Nat → Int)).Nodup :=
        List.Nodup.map Nat.cast_injective distinct
      simpa [List.nodup_cons, List.mem_map] using (List.perm_append_singleton _ _).nodup_iff.mpr cast

/-- Every value of the tree of a non-empty alphabet is one of its symbols. -/
theorem exists_of_mem_build_values {values : List Nat} (nonempty : values ≠ []) {x : Int}
    (inside : x ∈ (build values).root.values) : ∃ v ∈ values, x = v := by
  obtain _ | ⟨value, rest⟩ := values
  · exact absurd rfl nonempty
  rw [build_cons, mem_values_foldl_insert (by simp [Node.leaf])] at inside
  rcases inside with here | ⟨v, later, rfl⟩
  · exact ⟨value, List.mem_cons_self _ _, by simpa using here⟩
  · exact ⟨v, List.mem_cons_of_mem _ later, rfl⟩

/-- The search from a zeroed `PathInfo`, with room in `bit_path` for the tree, in terms of
`pathTo`. -/
theorem pathInfo_zero (tree : BinaryTree) {size : Nat} (room : tree.root.height < size) (v : Nat) :
    tree.pathInfo size PathInfo.zero v =
      .ok (match tree.root.pathTo v with
        | some path => (true, PathInfo.zero.follow 0 path)
        | none => (false, PathInfo.zero)) :=
  pathInfoAt_eq size v tree.root 0 PathInfo.zero (fun _ => by omega) fun _ _ => rfl

/-- `find_value` on the `PathInfo` of a found value returns that value. -/
theorem findValue_follow (tree : BinaryTree) (v : Int) (path : List Bool)
    (found : tree.root.pathTo v = some path) :
    tree.findValue (PathInfo.zero.follow 0 path) = some v := by
  obtain ⟨left, right, reached⟩ := findValueLoop_pathTo (PathInfo.zero.follow 0 path).bitPath
    tree.root v path 0 found fun index _ => by simp [PathInfo.follow]
  simp only [findValue, PathInfo.follow, Nat.zero_add] at reached ⊢
  rw [reached]

/-- **`path_info` on a built tree**: with room in `bit_path` for the tree, from a zeroed `PathInfo`
it returns, and it finds exactly the inserted values; then its depth is the length of the node's
path, `bit_path` holds the path's turns and is clear beyond it, and `find_value` returns the value. -/
theorem pathInfo_build (size : Nat) (values : List Nat) (v : Nat) (room : (build values).root.height < size) :
    ∃ found info, (build values).pathInfo size PathInfo.zero v = .ok (found, info) ∧
      (found = true ↔ v ∈ values) ∧
      (found = true → ∃ path, (build values).root.pathTo v = some path ∧ info.depth = path.length ∧
        (∀ index, info.bitPath index = path.getD index false) ∧ (build values).findValue info = some v) := by
  rw [pathInfo_zero _ room, ← mem_build_values]
  cases found : (build values).root.pathTo v with
  | none => exact ⟨false, _, rfl, by simp [(Node.pathTo_eq_none_iff _ _).mp found], by simp⟩
  | some path =>
      have present : (v : Int) ∈ (build values).root.values := by
        by_contra absent
        rw [← Node.pathTo_eq_none_iff] at absent
        simp [found] at absent
      refine ⟨true, _, rfl, by simp [present], fun _ => ⟨path, rfl, by simp [PathInfo.follow], ?_, ?_⟩⟩
      · intro index
        simp [PathInfo.follow]
      · exact findValue_follow _ v path found

theorem pathInfo_build_example : (build [0x41, 0x42, 0x43]).root.height < bitPathSize 1 ∧
    ∃ found info, (build [0x41, 0x42, 0x43]).pathInfo (bitPathSize 1) PathInfo.zero 0x43 = .ok (found, info) ∧
      (found = true ↔ 0x43 ∈ [0x41, 0x42, 0x43]) ∧
      (found = true → ∃ path, (build [0x41, 0x42, 0x43]).root.pathTo 0x43 = some path ∧
        info.depth = path.length ∧ (∀ index, info.bitPath index = path.getD index false) ∧
        (build [0x41, 0x42, 0x43]).findValue info = some 0x43) :=
  ⟨by decide, pathInfo_build _ _ _ (by decide)⟩

end BinaryTree

end XLib.XKC
