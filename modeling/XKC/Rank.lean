/-
**Rank and code length.**

`encode` inserts the sorted alphabet into the tree in order, so a letter's rank in the header
decides where its node sits: the letter at 1-based position `i` lands at depth `⌊log₂ i⌋`, and
later insertions never move it. Every occurrence of a symbol is written with `max_depth_bits`
depth bits and then its path, so its code has `max_depth_bits + ⌊log₂ i⌋` bits.

* `pathTo_foldl_insert_self`: a value inserted into a balanced tree of `n` nodes sits at depth
  `⌊log₂ (n + 1)⌋`, and later insertions of other values keep it there.
* `pathTo_build_getElem?`: in the tree of a duplicate-free list, the value at index `i` (from 0)
  sits at depth `⌊log₂ (i + 1)⌋`.
* `code_length_rank`: the header letter at index `i` has a code of `max_depth_bits + ⌊log₂ (i + 1)⌋`
  bits, and a symbol of larger count never has a longer code than one of smaller count.
* `symbolCode_prefixFree`: of two distinct letters, neither code begins the other, so a stream of
  codes has one way to be cut.
-/

import XKC.RoundTrip

namespace XLib.XKC

namespace Node

/-- Insertions of other values keep a value's path. -/
theorem pathTo_foldl_insert_of_not_mem (t : Node) {x : Int} (values : List Nat)
    (absent : ∀ v ∈ values, x ≠ v) : (values.foldl insert t).pathTo x = t.pathTo x := by
  induction values generalizing t with
  | nil => rfl
  | cons v rest ih =>
      rw [List.foldl_cons, ih _ fun w inside => absent w (List.mem_cons_of_mem _ inside),
        pathTo_insert_of_ne t (absent v (List.mem_cons_self _ _))]

/-- Insertions keep the root and its value. -/
theorem foldl_insert_root (v : Int) (left right : Node) (values : List Nat) :
    ∃ left' right', values.foldl insert (node v left right) = node v left' right' := by
  induction values generalizing left right with
  | nil => exact ⟨left, right, rfl⟩
  | cons value rest ih =>
      obtain ⟨left', right', step⟩ := insert_node v left right value
      rw [List.foldl_cons, step]
      exact ih left' right'

/-- A value inserted into a live balanced tree of `n` nodes that lacks it, then followed by other
values, sits at depth `⌊log₂ (n + 1)⌋`. -/
theorem pathTo_foldl_insert_self {t : Node} (live : t ≠ null) (balanced : t.Balanced) {x : Nat}
    (absent : (x : Int) ∉ t.values) {later : List Nat} (others : x ∉ later) :
    ∃ path, (later.foldl insert (t.insert x)).pathTo x = some path ∧
      path.length = Nat.log 2 (t.size + 1) := by
  rw [pathTo_foldl_insert_of_not_mem _ later fun v inside same => others (by rwa [Nat.cast_inj.mp same]),
    pathTo_insert_self live absent]
  exact ⟨_, rfl, insertPath_length balanced live⟩

end Node

/-- **The value inserted at index `i` sits at depth `⌊log₂ (i + 1)⌋`**, in the tree of a
duplicate-free list: the tree before it has `i` nodes, `insert` puts it at depth
`⌊log₂ (i + 1)⌋`, and no later insertion moves it. -/
theorem pathTo_build_getElem? {values : List Nat} (distinct : values.Nodup) {index x : Nat}
    (found : values[index]? = some x) :
    ∃ path, (BinaryTree.build values).root.pathTo x = some path ∧
      path.length = Nat.log 2 (index + 1) := by
  obtain _ | ⟨first, rest⟩ := values
  · simp at found
  rw [BinaryTree.build_cons]
  cases index with
  | zero =>
      simp only [List.getElem?_cons_zero, Option.some.injEq] at found
      subst found
      obtain ⟨left, right, root⟩ := Node.foldl_insert_root (first : Int) .null .null rest
      exact ⟨[], by simp [Node.leaf, root, Node.pathTo], by simp⟩
  | succ index =>
      rw [List.getElem?_cons_succ] at found
      obtain ⟨inside, rfl⟩ := List.getElem?_eq_some_iff.mp found
      have split : rest = rest.take index ++ rest[index] :: rest.drop (index + 1) := by
        rw [← List.drop_eq_getElem_cons inside, List.take_append_drop]
      have before : (rest.take index).length = index := by simp; omega
      generalize rest.take index = pre, rest.drop (index + 1) = post at split before
      generalize rest[index] = x at split
      subst split
      obtain ⟨fresh, distinct⟩ := List.nodup_cons.mp distinct
      obtain ⟨-, later, apart⟩ := List.nodup_append.mp distinct
      have live : Node.leaf first ≠ .null := by simp [Node.leaf]
      obtain ⟨grown, balanced, size⟩ := Node.foldl_insert_balanced live (by simp [Node.leaf]) pre
      have absent : (x : Int) ∉ (pre.foldl Node.insert (Node.leaf first)).values := by
        rw [BinaryTree.mem_values_foldl_insert live]
        have notFirst : x ≠ first := fun same => fresh (same ▸ List.mem_append_right _ (List.mem_cons_self _ _))
        simpa [notFirst] using fun inPre => apart inPre (List.mem_cons_self x post)
      have count : (pre.foldl Node.insert (Node.leaf first)).size + 1 = index + 1 + 1 := by
        rw [size, Node.size_leaf, before]; omega
      rw [List.foldl_append, List.foldl_cons, ← count]
      exact Node.pathTo_foldl_insert_self grown balanced absent (List.nodup_cons.mp later).1

/-- The header letter at index `i` sits at depth `⌊log₂ (i + 1)⌋`, so its code has
`⌊log₂ (i + 1)⌋` bits after the depth field. -/
theorem symbolCode_length_of_getElem? (sort : FreqSort) (data : List UInt8) (maxDepthBits : Nat)
    {index symbol : Nat} (found : (headerAlphabet sort data)[index]? = some symbol) :
    ∃ path, (BinaryTree.build (headerAlphabet sort data)).root.pathTo symbol = some path ∧
      path.length = Nat.log 2 (index + 1) ∧
      (symbolCode (BinaryTree.build (headerAlphabet sort data)) maxDepthBits symbol).length =
        maxDepthBits + Nat.log 2 (index + 1) := by
  obtain ⟨path, reach, depth⟩ :=
    pathTo_build_getElem? (show (headerAlphabet sort data).Nodup from (sortedAlphabet_values sort _).1) found
  exact ⟨path, reach, depth, by rw [symbolCode_of_pathTo reach, List.length_append, lowBits_length, depth]⟩

/-- **A letter's rank decides its code length.** In the header alphabet of a buffer, the letter at
index `i` (1-based position `i + 1`) has its node at depth `⌊log₂ (i + 1)⌋`, and each of its
occurrences is written with `max_depth_bits + ⌊log₂ (i + 1)⌋` bits; a byte that occurs more often
than another never has a longer code. -/
theorem code_length_rank (sort : FreqSort) (data : List UInt8) :
    let tree := BinaryTree.build (headerAlphabet sort data)
    let maxDepthBits := bitsNeeded tree.root.height
    (∀ index (symbol : Nat), (headerAlphabet sort data)[index]? = some symbol →
      ∃ path, tree.root.pathTo symbol = some path ∧ path.length = Nat.log 2 (index + 1) ∧
        (symbolCode tree maxDepthBits symbol).length = maxDepthBits + Nat.log 2 (index + 1)) ∧
    ∀ a ∈ data, ∀ b ∈ data, data.count b < data.count a →
      (symbolCode tree maxDepthBits a.toNat).length ≤ (symbolCode tree maxDepthBits b.toNat).length := by
  intro tree maxDepthBits
  refine ⟨fun index symbol found => symbolCode_length_of_getElem? sort data _ found,
    fun a inA b inB fewer => ?_⟩
  obtain ⟨-, members, ordered, -⟩ := sortedAlphabet_values sort (data.map UInt8.toNat)
  obtain ⟨first, atFirst⟩ := List.mem_iff_getElem?.mp ((members a.toNat).mpr (List.mem_map_of_mem _ inA))
  obtain ⟨second, atSecond⟩ := List.mem_iff_getElem?.mp ((members b.toNat).mpr (List.mem_map_of_mem _ inB))
  obtain ⟨-, -, -, lengthA⟩ := symbolCode_length_of_getElem? sort data maxDepthBits atFirst
  obtain ⟨-, -, -, lengthB⟩ := symbolCode_length_of_getElem? sort data maxDepthBits atSecond
  have before : first ≤ second := by
    by_contra after
    obtain ⟨inFirst, valueFirst⟩ := List.getElem?_eq_some_iff.mp atFirst
    obtain ⟨inSecond, valueSecond⟩ := List.getElem?_eq_some_iff.mp atSecond
    have counts := List.pairwise_iff_getElem.mp ordered second first inSecond inFirst (by omega)
    rw [valueFirst, valueSecond, List.count_map_of_injective _ _ fun _ _ => UInt8.toNat.inj,
      List.count_map_of_injective _ _ fun _ _ => UInt8.toNat.inj] at counts
    omega
  rw [lengthA, lengthB]
  exact Nat.add_le_add_left (Nat.log_mono_right (by omega)) _

/-! ### A prefix code -/

/-- Every letter of an alphabet has a path in its tree. -/
theorem exists_pathTo_build {alphabet : List Nat} {v : Nat} (inside : v ∈ alphabet) :
    ∃ path, (BinaryTree.build alphabet).root.pathTo v = some path := by
  cases found : (BinaryTree.build alphabet).root.pathTo v with
  | none => exact absurd ((BinaryTree.mem_build_values _ v).mpr inside) ((Node.pathTo_eq_none_iff _ _).mp found)
  | some path => exact ⟨path, rfl⟩

/-- In the tree of any alphabet, with `max_depth_bits = BitsNeeded(height)`, the code of one letter
begins the code of another only when the two are the same letter. The depth fields agree, since
both depths fit in `max_depth_bits` bits, so the paths have one length and are equal, and one path
leads to one node. -/
theorem eq_of_symbolCode_prefixed (alphabet : List Nat) {a b : Nat} (inA : a ∈ alphabet) (inB : b ∈ alphabet)
    (starts : symbolCode (BinaryTree.build alphabet) (bitsNeeded (BinaryTree.build alphabet).root.height) a <+:
      symbolCode (BinaryTree.build alphabet) (bitsNeeded (BinaryTree.build alphabet).root.height) b) :
    a = b := by
  obtain ⟨pathA, foundA⟩ := exists_pathTo_build inA
  obtain ⟨pathB, foundB⟩ := exists_pathTo_build inB
  rw [symbolCode_of_pathTo foundA, symbolCode_of_pathTo foundB] at starts
  have fits : ∀ {v : Nat} {path : List Bool}, (BinaryTree.build alphabet).root.pathTo v = some path →
      path.length < 2 ^ bitsNeeded (BinaryTree.build alphabet).root.height := fun found =>
    (Node.length_le_height_of_pathTo found).trans_lt (lt_two_pow_bitsNeeded _)
  have heads : lowBits (bitsNeeded (BinaryTree.build alphabet).root.height) pathA.length =
      lowBits (bitsNeeded (BinaryTree.build alphabet).root.height) pathB.length := by
    have front := congrArg (List.take (bitsNeeded (BinaryTree.build alphabet).root.height))
      (List.prefix_iff_eq_take.mp starts)
    rwa [List.take_take, Nat.min_eq_left (by simp), List.take_left' (lowBits_length _ _),
      List.take_left' (lowBits_length _ _)] at front
  have depths : pathA.length = pathB.length := by
    have values := congrArg bitsValue heads
    rwa [bitsValue_lowBits, bitsValue_lowBits, Nat.mod_eq_of_lt (fits foundA),
      Nat.mod_eq_of_lt (fits foundB)] at values
  rw [heads] at starts
  obtain rfl := ((List.prefix_append_right_inj _).mp starts).eq_of_length depths
  obtain ⟨_, _, reachA⟩ := findValueLoop_pathTo (fun index => pathA.getD index false) _ _ pathA 0 foundA
    fun index _ => by rw [Nat.zero_add]
  obtain ⟨_, _, reachB⟩ := findValueLoop_pathTo (fun index => pathA.getD index false) _ _ pathA 0 foundB
    fun index _ => by rw [Nat.zero_add]
  rw [reachA] at reachB
  exact Nat.cast_injective (Node.node.inj (Option.some.inj reachB)).1

/-- **The code `encode` writes is a prefix code**: in the tree of any alphabet, with
`max_depth_bits = BitsNeeded(height)`, the codes of two distinct letters are not prefixes of one
another. -/
theorem symbolCode_prefixFree (alphabet : List Nat) {a b : Nat} (inA : a ∈ alphabet) (inB : b ∈ alphabet)
    (apart : a ≠ b) :
    ¬symbolCode (BinaryTree.build alphabet) (bitsNeeded (BinaryTree.build alphabet).root.height) a <+:
        symbolCode (BinaryTree.build alphabet) (bitsNeeded (BinaryTree.build alphabet).root.height) b ∧
      ¬symbolCode (BinaryTree.build alphabet) (bitsNeeded (BinaryTree.build alphabet).root.height) b <+:
        symbolCode (BinaryTree.build alphabet) (bitsNeeded (BinaryTree.build alphabet).root.height) a :=
  ⟨fun starts => apart (eq_of_symbolCode_prefixed alphabet inA inB starts),
    fun starts => apart (eq_of_symbolCode_prefixed alphabet inB inA starts).symm⟩

theorem symbolCode_prefixFree_example :
    0x41 ∈ [0x41, 0x42] ∧ 0x42 ∈ [0x41, 0x42] ∧ 0x41 ≠ 0x42 ∧
      ¬symbolCode (BinaryTree.build [0x41, 0x42]) (bitsNeeded (BinaryTree.build [0x41, 0x42]).root.height) 0x41 <+:
        symbolCode (BinaryTree.build [0x41, 0x42]) (bitsNeeded (BinaryTree.build [0x41, 0x42]).root.height) 0x42 ∧
      ¬symbolCode (BinaryTree.build [0x41, 0x42]) (bitsNeeded (BinaryTree.build [0x41, 0x42]).root.height) 0x42 <+:
        symbolCode (BinaryTree.build [0x41, 0x42]) (bitsNeeded (BinaryTree.build [0x41, 0x42]).root.height) 0x41 :=
  ⟨by decide, by decide, by decide, symbolCode_prefixFree [0x41, 0x42] (by decide) (by decide) (by decide)⟩

end XLib.XKC
