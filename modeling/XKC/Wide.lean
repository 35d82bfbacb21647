/-
**What `XKC<alphabet_T>` returns for symbols wider than a byte.**

The header of `encode` pushes each letter into a `bytes_t`, which keeps its low byte, and `decode`
builds its tree from those bytes. `insert` never compares values, so the tree `decode` builds has
the shape of the tree `encode` built and, at every node, the low byte of that node's letter
(`build_relabel`). `decode` reads values only to push them, so its run on the relabelled tree is the
relabelled run (`decodeLoop_relabel`). The codes themselves do not depend on the width, so `decode`
reads them as it does for bytes, and it returns each symbol's low byte.

* `build_relabel`: the tree of the letters' low bytes is the tree of the letters with every value
  cut to its low byte.
* `decodeStep_relabel`, `decodeLoop_relabel`: a round and the loop on a tree with relabelled values
  are the relabelled round and loop, faults included.
* `decode_encode_lowBytes` — **the low bytes come back**: for every width whose `bit_path` holds
  the 8 turns of a path (one to three bytes), `encode` returns, and a buffer of two to 256 distinct
  symbols and fewer than `2 ^ 28` of them decodes to the low byte of each symbol. For `uint16_t`
  the high byte of every symbol is lost.
* `encode_bitPath_empty` — **`XKC<uint32_t>` fails in `encode`**: its `bit_path_t` has
  `max() + 1 = 0` bits, so `path_info` stops at its first write, and every buffer of two or more
  distinct symbols fails on `bit_path`.
-/

import XKC.Rank

namespace XLib.XKC

/-! ### Relabelled trees -/

namespace Node

/-- The tree with every value passed through `f`. -/
def relabel (f : Int → Int) : Node → Node
  | null => null
  | node v left right => node (f v) (left.relabel f) (right.relabel f)

@[simp] theorem relabel_eq_null (f : Int → Int) (t : Node) : t.relabel f = null ↔ t = null := by
  cases t <;> simp [relabel]

@[simp] theorem countNodes_relabel (f : Int → Int) (t : Node) : (t.relabel f).countNodes = t.countNodes := by
  induction t with
  | null => rfl
  | node v left right ihl ihr => simp only [relabel, countNodes, relabel_eq_null, ihl, ihr]

/-- `find_value` walks the same turns in a relabelled tree and reaches the relabelled node. -/
theorem findValueLoop_relabel (f : Int → Int) (bitPath : Nat → Bool) (steps depth : Nat) (t : Node) :
    findValueLoop bitPath steps depth (t.relabel f) = (findValueLoop bitPath steps depth t).map (relabel f) := by
  induction steps generalizing depth t with
  | zero => rfl
  | succ steps ih =>
      cases t with
      | null => rfl
      | node v left right =>
          simp only [relabel, findValueLoop, ← ih]
          split <;> rfl

section Insert

variable {f : Int → Int} {g : Nat → Nat} (compatible : ∀ v : Nat, f v = g v)
include compatible

/-- `insert` looks at the shape only, so it commutes with relabelling. -/
theorem relabel_insert (t : Node) (v : Nat) : (t.insert v).relabel f = (t.relabel f).insert (g v) := by
  induction t with
  | null => rfl
  | node w left right ihl ihr =>
      simp only [insert, relabel, relabel_eq_null, countNodes_relabel]
      split_ifs <;> simp only [relabel, leaf, compatible, ihl, ihr]

theorem relabel_foldl_insert (values : List Nat) (t : Node) :
    (values.foldl insert t).relabel f = (values.map g).foldl insert (t.relabel f) := by
  induction values generalizing t with
  | nil => rfl
  | cons v rest ih => simp only [List.foldl_cons, List.map_cons, ih, relabel_insert compatible]

end Insert

end Node

/-- **The tree of the relabelled letters is the relabelled tree** of a non-empty alphabet. -/
theorem build_relabel {f : Int → Int} {g : Nat → Nat} (compatible : ∀ v : Nat, f v = g v)
    {values : List Nat} (nonempty : values ≠ []) :
    (BinaryTree.build (values.map g)).root = (BinaryTree.build values).root.relabel f := by
  obtain ⟨value, rest, rfl⟩ := List.exists_cons_of_ne_nil nonempty
  rw [List.map_cons, BinaryTree.build_cons, BinaryTree.build_cons, Node.relabel_foldl_insert compatible]
  simp only [Node.leaf, Node.relabel, compatible]

/-! ### `decode` on a relabelled tree -/

/-- The reader with every occurrence passed through `f`. -/
def Reader.relabel (f : Int → Int) (r : Reader) : Reader :=
  { r with occurrences := r.occurrences.map f }

/-- The context with the values of its tree passed through `f`. -/
def Context.relabel (f : Int → Int) (ctx : Context) : Context :=
  { ctx with tree := ⟨ctx.tree.root.relabel f⟩ }

section Relabel

variable (f : Int → Int) (data : List UInt8)

theorem readBit_relabel (r : Reader) :
    (r.relabel f).readBit data = (r.readBit data).map fun read => (read.1, read.2.relabel f) := by
  simp only [Reader.readBit, Reader.relabel]
  cases readAt data r.readBytes with
  | error fault => rfl
  | ok byte => simp only [Except.map]; split_ifs <;> rfl

/-- A bit loop does not look at the occurrences: on a relabelled reader it is the relabelled loop. -/
theorem readFold_relabel {α : Type} (bound : Nat) (fault : Nat → Fault) (update : Nat → α → Bool → α)
    (count index : Nat) (acc : α) (r : Reader) :
    readFold data bound fault update count index acc (r.relabel f) =
      (readFold data bound fault update count index acc r).map fun read => (read.1, read.2.relabel f) := by
  induction count generalizing index acc r with
  | zero => rfl
  | succ count ih =>
      simp only [readFold, readBit_relabel]
      cases r.readBit data with
      | error fault => rfl
      | ok read =>
          simp only [Except.map]
          split_ifs
          · rfl
          · rw [ih]; rfl

/-- `find_value` in a relabelled tree returns the relabelled value, or fails where it failed. -/
theorem findValue_relabel (tree : BinaryTree) (info : PathInfo) :
    (⟨tree.root.relabel f⟩ : BinaryTree).findValue info = (tree.findValue info).map f := by
  simp only [BinaryTree.findValue, Node.findValueLoop_relabel]
  cases findValueLoop info.bitPath info.depth 0 tree.root with
  | none => rfl
  | some reached => cases reached <;> rfl

/-- **One round on a relabelled tree** is the relabelled round. -/
theorem decodeStep_relabel (ctx : Context) (r : Reader) :
    decodeStep data (ctx.relabel f) (r.relabel f) = (decodeStep data ctx r).map (Reader.relabel f) := by
  simp only [decodeStep, Context.relabel, readDepth, readFold_relabel]
  cases readFold data 32 .shiftOutOfRange orBit ctx.maxDepthBits 0 0 r with
  | error fault => rfl
  | ok read =>
      simp only [Except.map, readPath, readFold_relabel]
      cases readFold data ctx.bitPathSize .bitPathOutOfRange (fun depth (info : PathInfo) bit => info.setBit depth bit)
        read.1 0 ⟨fun _ => false, read.1⟩ read.2 with
      | error fault => rfl
      | ok path =>
          simp only [findValue_relabel]
          cases ctx.tree.findValue path.1 with
          | none => rfl
          | some value => simp [Reader.relabel]

/-- **The loop on a relabelled tree** is the relabelled loop, round by round. -/
theorem decodeLoop_relabel (ctx : Context) (fuel : Nat) (r : Reader) :
    decodeLoop data (ctx.relabel f) fuel (r.relabel f) = (decodeLoop data ctx fuel r).map (Reader.relabel f) := by
  induction fuel generalizing r with
  | zero => rfl
  | succ fuel ih =>
      by_cases running : r.bitsRead < ctx.writtenBits
      · rw [decodeLoop, decodeLoop, if_pos running,
          if_pos (show (r.relabel f).bitsRead < (ctx.relabel f).writtenBits from running), decodeStep_relabel]
        cases decodeStep data ctx r with
        | error fault => rfl
        | ok next => exact ih next
      · rw [decodeLoop, decodeLoop, if_neg running,
          if_neg (show ¬(r.relabel f).bitsRead < (ctx.relabel f).writtenBits from running)]
        rfl

end Relabel

/-! ### What `encode` writes for wide symbols -/

/-- `result.push_back(letter.value)`: a letter cut to the `byte_t` of the header. -/
def lowByte (value : Int) : Int := value % 256

/-- What `decode` would read from `encode sort width data` if the header kept whole letters: the
tree `encode` built, its `max_depth_bits`, the counter and the reader after the alphabet. -/
def wideContext (sort : FreqSort) (width : Nat) (data : List UInt8) : Context :=
  let alphabet := (sortedAlphabet sort (symbols width data)).map Letter.value
  let tree := BinaryTree.build alphabet
  ⟨bitsNeeded tree.root.height, bitPathSize width,
    ((symbols width data).flatMap (symbolCode tree (bitsNeeded tree.root.height))).length % 2 ^ 32, tree,
    ⟨2 + alphabet.length, 0, 0, []⟩⟩

/-- The codes `encode` packs for `sizeof(alphabet_T) = width`: one per symbol, in input order. -/
def wideStream (sort : FreqSort) (width : Nat) (data : List UInt8) : List Bool :=
  (symbols width data).flatMap
    (symbolCode (wideContext sort width data).tree (wideContext sort width data).maxDepthBits)

/-- The bytes `encode sort width data` returns when `bit_path` has room for its tree. -/
def wideBytes (sort : FreqSort) (width : Nat) (data : List UInt8) : List UInt8 :=
  encodeHeader (wideContext sort width data).maxDepthBits (sortedAlphabet sort (symbols width data)) ++
    packBits (wideStream sort width data) ++ le32 ((wideStream sort width data).length % 2 ^ 32)

/-- A `bit_path_t` of at least 8 bits has at least 256: its size is 1, a power `2 ^ (8 * width)`
below `2 ^ 32`, or 0. -/
theorem le_bitPathSize {width : Nat} (room : 8 ≤ bitPathSize width) : 256 ≤ bitPathSize width := by
  unfold bitPathSize at room ⊢
  rcases width with _ | _ | _ | _ | width
  · exact absurd room (by decide)
  · decide
  · decide
  · decide
  · rw [show 8 * (width + 4) = 32 + 8 * width by ring, Nat.pow_add, Nat.mul_mod_right] at room ⊢
    omega

theorem firstSeen_length (values : List Nat) : (firstSeen values).length = values.dedup.length :=
  ((List.perm_ext_iff_of_nodup (nodup_firstSeen _) (List.nodup_dedup _)).mpr fun v => by
    rw [mem_firstSeen, List.mem_dedup]).length_eq

theorem lowByte_cast (v : Nat) : lowByte v = ((v % 256 : Nat) : Int) := by
  simp only [lowByte]; omega

theorem ofNat_mod_byte (v : Nat) : UInt8.ofNat (v % 256) = UInt8.ofNat v :=
  UInt8.toNat.inj (by rw [toNat_ofNat_byte, toNat_ofNat_byte, Nat.mod_mod])

theorem wideAlphabet_length (sort : FreqSort) (width : Nat) (data : List UInt8) :
    ((sortedAlphabet sort (symbols width data)).map Letter.value).length = (symbols width data).dedup.length := by
  rw [List.length_map, (sortedAlphabet_values sort _).2.2.2, firstSeen_length]

section Wide

variable (sort : FreqSort) {width : Nat} {data : List UInt8}
  (distinct : 2 ≤ (symbols width data).dedup.length) (few : (symbols width data).dedup.length ≤ 256)
include distinct few

/-- The tree of two to 256 letters is at most 8 high, and its codes have one to four depth bits. -/
theorem wideContext_depthBits :
    (wideContext sort width data).tree.root.height ≤ 8 ∧
      (wideContext sort width data).tree.root.height < 2 ^ (wideContext sort width data).maxDepthBits ∧
      0 < (wideContext sort width data).maxDepthBits ∧ (wideContext sort width data).maxDepthBits ≤ 4 := by
  have size := wideAlphabet_length sort width data
  obtain ⟨-, -, low⟩ := build_height_le ((sortedAlphabet sort (symbols width data)).map Letter.value)
    (by omega) (by omega)
  exact ⟨low, lt_two_pow_bitsNeeded _, bitsNeeded_pos _,
    bitsNeeded_le_of_lt (lt_of_le_of_lt low (show 8 < 2 ^ 4 by decide)) (by decide)⟩

/-- Every symbol has a path of at most 8 turns, and its depth fits in `max_depth_bits`. -/
theorem wide_pathTo : ∀ v ∈ symbols width data, ∃ path,
    (wideContext sort width data).tree.root.pathTo v = some path ∧ path.length ≤ 8 ∧
      path.length < 2 ^ (wideContext sort width data).maxDepthBits := by
  intro v inside
  obtain ⟨low, fits, -⟩ := wideContext_depthBits sort distinct few
  obtain ⟨path, found⟩ := exists_pathTo_build ((sortedAlphabet_values sort _).2.1 v |>.mpr inside)
  have deep := Node.length_le_height_of_pathTo found
  exact ⟨path, found, deep.trans low, lt_of_le_of_lt deep fits⟩

/-- Every symbol is read back under the wide context, when `bit_path` holds 8 turns. -/
theorem readable_wide (room : 8 ≤ bitPathSize width) :
    ∀ v ∈ symbols width data, (wideContext sort width data).Readable v := fun v inside => by
  obtain ⟨path, found, turns, fits⟩ := wide_pathTo sort distinct few v inside
  exact ⟨path, found, fits, turns.trans room⟩

/-- **`decode` parses what `encode` writes, with the letters cut to bytes**: the context it reads is
the wide context with every value of the tree relabelled by its low byte, and the codes follow the
alphabet. -/
theorem parseHeader_encode_wide :
    parseHeader width (wideBytes sort width data) = .ok ((wideContext sort width data).relabel lowByte) ∧
      wideStream sort width data <+:
        (byteBits (wideBytes sort width data)).drop (wideContext sort width data).start.position := by
  have size := wideAlphabet_length sort width data
  obtain ⟨-, -, -, narrow⟩ := wideContext_depthBits sort distinct few
  have letters := size
  rw [List.length_map] at letters
  have bytes : ∀ v ∈ ((sortedAlphabet sort (symbols width data)).map Letter.value).map (· % 256), v < 256 :=
    fun v inside => by
      obtain ⟨w, -, rfl⟩ := List.mem_map.mp inside
      exact Nat.mod_lt _ (by decide)
  have shape : wideBytes sort width data =
      [UInt8.ofNat (wideContext sort width data).maxDepthBits,
        UInt8.ofNat ((((sortedAlphabet sort (symbols width data)).map Letter.value).map (· % 256)).length - 1)] ++
        (((sortedAlphabet sort (symbols width data)).map Letter.value).map (· % 256)).map UInt8.ofNat ++
        packBits (wideStream sort width data) ++ le32 ((wideStream sort width data).length % 2 ^ 32) := by
    rw [wideBytes, encodeHeader_eq _ (by omega) (by omega)]
    simp only [List.map_map, List.length_map, Function.comp_def, ofNat_mod_byte]
  have tree : BinaryTree.build (((sortedAlphabet sort (symbols width data)).map Letter.value).map (· % 256)) =
      ⟨(wideContext sort width data).tree.root.relabel lowByte⟩ := by
    show _ = ⟨(BinaryTree.build ((sortedAlphabet sort (symbols width data)).map Letter.value)).root.relabel lowByte⟩
    rw [← build_relabel lowByte_cast (List.ne_nil_of_length_pos
      (show 0 < ((sortedAlphabet sort (symbols width data)).map Letter.value).length by omega))]
  refine ⟨?_, ?_⟩
  · rw [shape, parseHeader_frame width _ _ _ _ (by omega) (by simp only [List.length_map]; omega)
      (by simp only [List.length_map]; omega) bytes, Nat.mod_mod, tree]
    simp only [Context.relabel, wideStream, wideContext, List.length_map]
  · rw [shape, List.append_assoc _ (packBits _), byteBits_append, byteBits_append]
    refine (prefix_byteBits_packBits _).trans ?_
    rw [List.drop_left' (by simp [wideContext, Reader.position]; omega), byteBits_append]
    exact List.prefix_append _ _

/-- Each code of a wide buffer has its depth bits and at most 8 more. -/
theorem wideCodes_bounds (values : List Nat) (inside : ∀ v ∈ values, v ∈ symbols width data) :
    values.length * (wideContext sort width data).maxDepthBits ≤
        (values.flatMap (symbolCode (wideContext sort width data).tree
          (wideContext sort width data).maxDepthBits)).length ∧
      (values.flatMap (symbolCode (wideContext sort width data).tree
          (wideContext sort width data).maxDepthBits)).length ≤
        values.length * ((wideContext sort width data).maxDepthBits + 8) := by
  refine length_flatMap_bounds _ _ _ values fun v member => ?_
  obtain ⟨path, found, turns, -⟩ := wide_pathTo sort distinct few v (inside v member)
  rw [symbolCode_of_pathTo found, List.length_append, lowBits_length]
  omega

/-- Below `2 ^ 28` symbols the counter `encode` writes is the number of code bits: each code has at
most 12. -/
theorem wideContext_counter (short : (symbols width data).length < 2 ^ 28) :
    (wideContext sort width data).writtenBits = (wideStream sort width data).length := by
  obtain ⟨-, -, -, narrow⟩ := wideContext_depthBits sort distinct few
  have upper := (wideCodes_bounds sort distinct few _ fun _ inside => inside).2
  refine Nat.mod_eq_of_lt ?_
  calc (wideStream sort width data).length ≤ (symbols width data).length * 12 :=
        upper.trans (Nat.mul_le_mul_left _ (by omega))
    _ < 2 ^ 32 := by omega

/-- With 8 or more bits in `bit_path`, `encode` returns: the tree is at most 8 high. -/
theorem encode_wide (room : 8 ≤ bitPathSize width) : encode sort width data = .ok (wideBytes sort width data) :=
  encode_eq sort width data
    (lt_of_le_of_lt (wideContext_depthBits sort distinct few).1 (by have := le_bitPathSize room; omega))

/-- **`decode` of `encode` is the loop on the wide context**, each occurrence cut to its low byte:
the loop on the relabelled tree is the relabelled loop. -/
theorem decode_encode_eq_wide :
    decode width (wideBytes sort width data) =
      (decodeLoop (wideBytes sort width data) (wideContext sort width data)
        ((wideContext sort width data).writtenBits + 1) (wideContext sort width data).start).map
        fun r => (r.occurrences.map lowByte).map fun value => UInt8.ofNat (value % 256).toNat := by
  rw [decode, (parseHeader_encode_wide sort distinct few).1, ok_bind]
  change (decodeLoop _ ((wideContext sort width data).relabel lowByte) ((wideContext sort width data).writtenBits + 1)
    ((wideContext sort width data).start.relabel lowByte) >>= _) = _
  rw [decodeLoop_relabel]
  cases decodeLoop (wideBytes sort width data) (wideContext sort width data)
    ((wideContext sort width data).writtenBits + 1) (wideContext sort width data).start <;> rfl

end Wide

/-- What `decode` pushes for the relabelled occurrences of a list of symbols: each symbol's low byte. -/
theorem lowByte_output (values : List Nat) :
    ((values.map (Nat.cast : Nat → Int)).map lowByte).map (fun value => UInt8.ofNat (value % 256).toNat) =
      values.map UInt8.ofNat := by
  simp only [List.map_map]
  refine List.map_congr_left fun v _ => ?_
  simp only [Function.comp_apply, lowByte_cast]
  rw [show (((v % 256 : Nat) : Int) % 256).toNat = v % 256 by omega, ofNat_mod_byte]

/-- **The low bytes come back.** For every width whose `bit_path` holds the 8 turns of a path, a
buffer of two to 256 distinct symbols and fewer than `2 ^ 28` of them decodes to the low byte of
each symbol: the tree `decode` builds is the tree `encode` built with its letters cut to bytes,
and the loop reads every code. -/
theorem decode_encode_lowBytes (sort : FreqSort) (width : Nat) (data : List UInt8)
    (distinct : 2 ≤ (symbols width data).dedup.length) (few : (symbols width data).dedup.length ≤ 256)
    (short : (symbols width data).length < 2 ^ 28) (room : 8 ≤ bitPathSize width) :
    (encode sort width data >>= decode width) = .ok ((symbols width data).map UInt8.ofNat) := by
  obtain ⟨-, -, reads, narrow⟩ := wideContext_depthBits sort distinct few
  have start : (wideContext sort width data).start.Aligned := Nat.succ_pos 7
  have counter := wideContext_counter sort distinct few short
  have ends := (@decodeLoop_ends (wideBytes sort width data) _ reads _ _ start
    (Nat.lt_succ_of_le (Nat.sub_le _ _))).2 (symbols width data).length
  obtain ⟨taken, rest, split, stopped, loop⟩ := decodeLoop_codes (by omega) _
    (readable_wide sort distinct few room) start (parseHeader_encode_wide sort distinct few).2
    ((Nat.mod_le _ _).trans (Nat.le_add_left _ _)) _ (Nat.lt_add_of_pos_left (Nat.succ_pos _))
  have none : rest = [] := by
    have restBits := (wideCodes_bounds sort distinct few rest fun v inside =>
      split ▸ List.mem_append_right _ inside).1
    have total : (wideStream sort width data).length =
        (taken.flatMap (symbolCode (wideContext sort width data).tree
          (wideContext sort width data).maxDepthBits)).length +
        (rest.flatMap (symbolCode (wideContext sort width data).tree
          (wideContext sort width data).maxDepthBits)).length := by
      rw [wideStream, split, List.flatMap_append, List.length_append]
    have fresh : (wideContext sort width data).start.bitsRead = 0 := rfl
    have empty : rest.length * (wideContext sort width data).maxDepthBits = 0 := by omega
    exact List.length_eq_zero.mp ((Nat.mul_eq_zero.mp empty).resolve_right (by omega))
  rw [none, List.append_nil] at split
  rw [encode_wide sort distinct few room, ok_bind, decode_encode_eq_wide sort distinct few, ← ends, loop, ← split]
  exact congrArg Except.ok (lowByte_output _)

theorem decode_encode_lowBytes_example :
    2 ≤ (symbols 2 [0x41, 0, 0x41, 0, 0x42, 0x01]).dedup.length ∧
      (symbols 2 [0x41, 0, 0x41, 0, 0x42, 0x01]).dedup.length ≤ 256 ∧
      (symbols 2 [0x41, 0, 0x41, 0, 0x42, 0x01]).length < 2 ^ 28 ∧ 8 ≤ bitPathSize 2 ∧
      (encode stdSort 2 [0x41, 0, 0x41, 0, 0x42, 0x01] >>= decode 2) = .ok [0x41, 0x41, 0x42] :=
  ⟨by decide, by decide, by decide, by decide,
    decode_encode_lowBytes stdSort 2 _ (by decide) (by decide) (by decide) (by decide)⟩

/-! ### A `bit_path` of no bits -/

/-- Two or more distinct symbols give two symbols that differ. -/
theorem exists_ne_of_dedup {values : List Nat} (distinct : 2 ≤ values.dedup.length) :
    ∃ a ∈ values, ∃ b ∈ values, a ≠ b := by
  match listed : values.dedup, distinct with
  | a :: b :: rest, _ =>
      have nodup := listed ▸ List.nodup_dedup values
      refine ⟨a, List.mem_dedup.mp (by simp [listed]), b, List.mem_dedup.mp (by simp [listed]), ?_⟩
      exact fun same => (List.nodup_cons.mp nodup).1 (by simp [same])

/-- **`XKC<uint32_t>` never encodes a buffer of two or more distinct symbols.** For every width whose
`bit_path_t` has `max() + 1 = 0` bits (four bytes and more), `encode` stops at a write to
`bit_path`: with no bit to write, `path_info` returns only for the root's symbol, and a second
symbol is not at the root. -/
theorem encode_bitPath_empty (sort : FreqSort) (width : Nat) (data : List UInt8)
    (distinct : 2 ≤ (symbols width data).dedup.length) (empty : bitPathSize width = 0) :
    ∃ index, encode sort width data = .error (.bitPathOutOfRange index) := by
  cases encoded : encode sort width data with
  | error fault =>
      obtain ⟨index, -, rfl⟩ := encode_fault encoded
      exact ⟨index, rfl⟩
  | ok out =>
      obtain ⟨a, inA, b, inB, apart⟩ := exists_ne_of_dedup distinct
      have searched := encode_ok_pathInfo encoded
      rw [empty] at searched
      obtain ⟨v, left, right, root⟩ : ∃ v left right,
          (BinaryTree.build ((sortedAlphabet sort (symbols width data)).map Letter.value)).root =
            .node v left right := by
        cases built : (BinaryTree.build ((sortedAlphabet sort (symbols width data)).map Letter.value)).root with
        | null => exact absurd built (build_root_ne_null _)
        | node v left right => exact ⟨v, left, right, rfl⟩
      obtain ⟨_, foundA⟩ := searched a inA
      obtain ⟨_, foundB⟩ := searched b inB
      rw [BinaryTree.pathInfo, root] at foundA foundB
      exact absurd (Int.ofNat_inj.mp ((pathInfoAt_no_room foundA).symm.trans (pathInfoAt_no_room foundB))) apart

theorem encode_bitPath_empty_example :
    2 ≤ (symbols 4 [0x41, 0, 0, 0, 0x42, 0, 0, 0]).dedup.length ∧ bitPathSize 4 = 0 ∧
      ∃ index, encode stdSort 4 [0x41, 0, 0, 0, 0x42, 0, 0, 0] = .error (.bitPathOutOfRange index) :=
  ⟨by decide, by decide, encode_bitPath_empty stdSort 4 _ (by decide) (by decide)⟩

end XLib.XKC
