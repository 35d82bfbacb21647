/-
**Decoding what `encode` wrote.**

The reader walks the bit sequence of the buffer (`byteBits`), and the packed codes of `encode` are
a prefix of the bit sequence of their bytes (`prefix_byteBits_packBits`). From there a round of
`decode` reads one code back (`decodeStep_code`), and the loop reads codes until it reaches the
first code boundary at or past the counter (`decodeLoop_codes`). For a byte buffer `decode`
parses what `encode` wrote (`parseHeader_encode`), so its loop reads the codes of a prefix of the
buffer (`decodeLoop_encode`).

* `decode_encode_nonempty`: every non-empty buffer of fewer than `2 ^ 28` bytes decodes back to
  itself, one repeated byte included; `decode_encode`: the same for two or more distinct bytes.
* `decode_encode_inBounds`: for every non-empty buffer, `decode` of `encode` returns a prefix of the
  buffer, so it reads only inside `encode`'s output; `decode_encode_nil`: the empty buffer's header
  declares 256 letters in a six-byte buffer, and `decode` reads past its end.
* `encode_counter`: the trailing counter is the number of code bits modulo `2 ^ 32`, and below
  `2 ^ 32` the loop stops right after the last code; `encode_counter_wraps`: a buffer of `2 ^ 32 + 1`
  bytes has more code bits than the counter holds.
* `encode_length_le`: `encode` writes at most 12 code bits per byte of its input, after at most 262
  bytes of header and counter.
* `decode_encode_wide`: with two-byte symbols the header keeps one byte per letter, and `decode`
  does not return the buffer; with four-byte symbols `encode` itself stops, at its first write to a
  `bit_path` of no bits.
-/

import XKC.Encode
import XKC.BitStream

namespace XLib.XKC

/-- One more depth bit below the sign, `depth |= bit << depth_bit`, appends it to the bits read so
far. -/
theorem orBit_bitsValue (done : List Bool) (bit : Bool) (narrow : done.length < 31) :
    orBit done.length (bitsValue done) bit = bitsValue (done ++ [bit]) := by
  cases bit with
  | false => simp [orBit, shiftedBit, bitsValue_append]
  | true => simpa [orBit, shiftedBit, Nat.ne_of_lt narrow] using Writer.bitsValue_or_two_pow done

/-- The depth loop's fold, on bits below the sign, accumulates their LSB-first value. -/
theorem foldlIdx_orBit (done bits : List Bool) (narrow : done.length + bits.length ≤ 31) :
    bits.foldlIdx orBit (bitsValue done) done.length = bitsValue (done ++ bits) := by
  induction bits generalizing done with
  | nil => simp
  | cons bit bits ih =>
      simp only [List.length_cons] at narrow
      rw [List.foldlIdx, orBit_bitsValue done bit (by omega),
        show done.length + 1 = (done ++ [bit]).length by simp, ih _ (by simp; omega), List.append_assoc,
        List.singleton_append]

/-- Setting the bit after `done` appends it. -/
theorem setBit_getD (done : List Bool) (depth : Nat) (bit : Bool) :
    (⟨fun index => done.getD index false, depth⟩ : PathInfo).setBit done.length bit =
      ⟨fun index => (done ++ [bit]).getD index false, depth⟩ := by
  ext index
  · simp only [PathInfo.setBit_bitPath, List.getD_eq_getElem?_getD]
    rcases Nat.lt_trichotomy index done.length with before | here | after
    · simp [Nat.ne_of_lt before, List.getElem?_append_left before]
    · subst here; simp
    · rw [List.getElem?_eq_none (by omega), List.getElem?_eq_none (by simp; omega)]
      simp [Nat.ne_of_gt after]
  · rfl

/-- The path loop's fold stores the bits in `bit_path`, after the bits `done`. -/
theorem foldlIdx_setBit (done bits : List Bool) (depth : Nat) :
    bits.foldlIdx (fun depth (info : PathInfo) bit => info.setBit depth bit)
        ⟨fun index => done.getD index false, depth⟩ done.length =
      ⟨fun index => (done ++ bits).getD index false, depth⟩ := by
  induction bits generalizing done with
  | nil => simp
  | cons bit bits ih =>
      rw [List.foldlIdx, setBit_getD, show done.length + 1 = (done ++ [bit]).length by simp, ih,
        List.append_assoc, List.singleton_append]

/-- **The depth loop on known bits** accumulates their LSB-first value, while no bit reaches the
sign of the `int`. -/
theorem readDepth_ahead (data : List UInt8) (bits : List Bool) {r : Reader} (aligned : r.Aligned)
    (ahead : bits <+: (byteBits data).drop r.position) (narrow : bits.length ≤ 31) :
    readDepth data bits.length 0 0 r = .ok (bitsValue bits, r.skip bits.length) := by
  have value : bits.foldlIdx orBit 0 0 = bitsValue bits := by
    simpa using foldlIdx_orBit [] bits (by simpa using narrow)
  rw [← value]
  exact readFold_ahead .shiftOutOfRange orBit aligned ahead 0 (by omega) 0

/-- **The path loop on known bits** stores them in `bit_path`, while the bitset holds them. -/
theorem readPath_ahead (data : List UInt8) (size depth : Nat) (bits : List Bool) {r : Reader}
    (aligned : r.Aligned) (ahead : bits <+: (byteBits data).drop r.position) (room : bits.length ≤ size) :
    readPath data size bits.length 0 ⟨fun _ => false, depth⟩ r =
      .ok (⟨fun index => bits.getD index false, depth⟩, r.skip bits.length) := by
  have filled := foldlIdx_setBit [] bits depth
  simp only [List.getD_nil, List.nil_append, List.length_nil] at filled
  rw [← filled]
  exact readFold_ahead .bitPathOutOfRange _ aligned ahead 0 (by omega) _

/-! ### Rounds and the loop on a stream of codes -/

/-- A zeroed `PathInfo` followed from the root, as the path loop of `decode` fills it. -/
theorem follow_zero (path : List Bool) :
    PathInfo.zero.follow 0 path = ⟨fun index => path.getD index false, path.length⟩ := by
  ext index <;> simp [PathInfo.follow]

theorem symbolCode_of_pathTo {tree : BinaryTree} {maxDepthBits v : Nat} {path : List Bool}
    (found : tree.root.pathTo v = some path) :
    symbolCode tree maxDepthBits v = lowBits maxDepthBits path.length ++ path := by
  simp [symbolCode, found]

/-- **One round reads one code**: where the stream holds the code of a symbol of the tree, with a
depth that fits in `max_depth_bits` and a path that fits in `bit_path`, the round appends that
symbol and moves past its code. -/
theorem decodeStep_code {data : List UInt8} {ctx : Context} {r : Reader} (aligned : r.Aligned)
    (narrow : ctx.maxDepthBits ≤ 31) {v : Int} {path : List Bool}
    (found : ctx.tree.root.pathTo v = some path) (fits : path.length < 2 ^ ctx.maxDepthBits)
    (room : path.length ≤ ctx.bitPathSize)
    (ahead : lowBits ctx.maxDepthBits path.length ++ path <+: (byteBits data).drop r.position) :
    decodeStep data ctx r =
      .ok { r.skip (ctx.maxDepthBits + path.length) with occurrences := r.occurrences ++ [v] } := by
  have depthRead : readDepth data ctx.maxDepthBits 0 0 r = .ok (path.length, r.skip ctx.maxDepthBits) := by
    have := readDepth_ahead data (lowBits ctx.maxDepthBits path.length) aligned
      ((List.prefix_append _ _).trans ahead) (by simpa using narrow)
    simpa [bitsValue_lowBits, Nat.mod_eq_of_lt fits] using this
  have pathRead := readPath_ahead data ctx.bitPathSize path.length path (Reader.skip_aligned r _)
    (by simpa [Reader.position_skip] using prefix_drop_append ahead) room
  have reached := BinaryTree.findValue_follow ctx.tree v path found
  rw [follow_zero] at reached
  simp only [decodeStep, depthRead, pathRead, reached, Reader.skip_skip]
  rfl

/-- Moving a reader on leaves its occurrences alone. -/
theorem skip_with (r : Reader) (occurrences : List Int) (count : Nat) :
    ({ r with occurrences } : Reader).skip count = { r.skip count with occurrences } := rfl

/-- A symbol `decode` reads back under `ctx`: it is in the tree, its depth fits in
`max_depth_bits`, and its path fits in `bit_path`. -/
def Context.Readable (ctx : Context) (v : Nat) : Prop :=
  ∃ path, ctx.tree.root.pathTo v = some path ∧ path.length < 2 ^ ctx.maxDepthBits ∧
    path.length ≤ ctx.bitPathSize

/-- **The loop on a stream of codes**: from a reader ahead of the codes of `values`, with a counter
no further than their end and enough fuel, the loop reads the codes of a prefix of `values`, one
round each, and stops at the first code boundary at or past the counter. -/
theorem decodeLoop_codes {data : List UInt8} {ctx : Context} (narrow : ctx.maxDepthBits ≤ 31)
    (values : List Nat) (readable : ∀ v ∈ values, ctx.Readable v) {r : Reader} (aligned : r.Aligned)
    (ahead : values.flatMap (symbolCode ctx.tree ctx.maxDepthBits) <+: (byteBits data).drop r.position)
    (reach : ctx.writtenBits ≤ r.bitsRead + (values.flatMap (symbolCode ctx.tree ctx.maxDepthBits)).length)
    (fuel : Nat) (enough : values.length < fuel) :
    ∃ taken rest, values = taken ++ rest ∧
      ctx.writtenBits ≤ r.bitsRead + (taken.flatMap (symbolCode ctx.tree ctx.maxDepthBits)).length ∧
      decodeLoop data ctx fuel r =
        .ok { r.skip (taken.flatMap (symbolCode ctx.tree ctx.maxDepthBits)).length with
          occurrences := r.occurrences ++ taken.map Nat.cast } := by
  induction values generalizing r fuel with
  | nil =>
      obtain ⟨fuel, rfl⟩ := Nat.exists_eq_add_one.mpr (Nat.lt_of_le_of_lt (Nat.zero_le _) enough)
      refine ⟨[], [], rfl, by simpa using reach, ?_⟩
      simp [decodeLoop, Nat.not_lt.mpr (by simpa using reach), Reader.skip_zero aligned]
  | cons v values ih =>
      obtain ⟨fuel, rfl⟩ := Nat.exists_eq_add_one.mpr (Nat.lt_of_le_of_lt (Nat.zero_le _) enough)
      by_cases running : r.bitsRead < ctx.writtenBits
      · obtain ⟨path, found, fits, room⟩ := readable v (List.mem_cons_self _ _)
        rw [List.flatMap_cons, symbolCode_of_pathTo found] at ahead reach
        have stepped := decodeStep_code aligned narrow found fits room ((List.prefix_append _ _).trans ahead)
        obtain ⟨taken, rest, split, stopped, loop⟩ := ih (fun w inside => readable w (List.mem_cons_of_mem _ inside))
          (show Reader.Aligned { r.skip (ctx.maxDepthBits + path.length) with
            occurrences := r.occurrences ++ [(v : Int)] } from Reader.skip_aligned r _)
          (show _ <+: (byteBits data).drop (r.skip (ctx.maxDepthBits + path.length)).position by
            simpa [Reader.position_skip] using prefix_drop_append ahead)
          (show ctx.writtenBits ≤ r.bitsRead + (ctx.maxDepthBits + path.length) + _ by
            simp only [List.length_append, lowBits_length] at reach; omega) fuel
          (by simp only [List.length_cons] at enough; omega)
        refine ⟨v :: taken, rest, by rw [split]; rfl, ?_, ?_⟩
        · simp only [List.flatMap_cons, symbolCode_of_pathTo found, List.length_append, lowBits_length]
          have stopped : ctx.writtenBits ≤ r.bitsRead + (ctx.maxDepthBits + path.length) +
              (taken.flatMap (symbolCode ctx.tree ctx.maxDepthBits)).length := stopped
          omega
        · simp only [decodeLoop, running, if_true, stepped]
          rw [loop, skip_with, Reader.skip_skip]
          simp [symbolCode_of_pathTo found, Nat.add_assoc]
      · refine ⟨[], v :: values, rfl, by simpa using Nat.not_lt.mp running, ?_⟩
        simp [decodeLoop, running, Reader.skip_zero aligned]

/-! ### The frame `decode` parses -/

/-- **`decode` parses a frame**: two header bytes, a declared alphabet of one to 256 byte values,
any body and a counter give the context of that alphabet's tree, with the counter modulo
`2 ^ 32` and the reader at the first byte of the body. -/
theorem parseHeader_frame (width maxDepthBits : Nat) (alphabet : List Nat) (body : List UInt8)
    (counter : Nat) (narrow : maxDepthBits < 256) (positive : 0 < alphabet.length)
    (bounded : alphabet.length ≤ 256) (bytes : ∀ v ∈ alphabet, v < 256) :
    parseHeader width ([UInt8.ofNat maxDepthBits, UInt8.ofNat (alphabet.length - 1)] ++
        alphabet.map UInt8.ofNat ++ body ++ le32 counter) =
      .ok ⟨maxDepthBits, bitPathSize width, counter % 2 ^ 32, BinaryTree.build alphabet,
        ⟨2 + alphabet.length, 0, 0, []⟩⟩ := by
  have size : (alphabet.length - 1) % 256 + 1 = alphabet.length := by omega
  have values : (alphabet.map UInt8.ofNat).map UInt8.toNat = alphabet := by
    rw [List.map_map]
    exact (List.map_congr_left fun v inside => by simp [Nat.mod_eq_of_lt (bytes v inside)]).trans
      (List.map_id _)
  have trailer : ∀ front : List UInt8,
      readLe ((front ++ le32 counter).drop ((front ++ le32 counter).length - 4)) = counter % 2 ^ 32 :=
    fun front => by rw [List.drop_left' (by simp), readLe_le32]
  rw [parseHeader_eq width _ (by simp; omega), trailer]
  simp only [List.getD_eq_getElem?_getD, List.cons_append, List.nil_append, List.getElem?_cons_zero,
    List.getElem?_cons_succ, Option.getD_some, toNat_ofNat_byte, Nat.mod_eq_of_lt narrow, size,
    List.drop_succ_cons, List.drop_zero, List.append_assoc, List.take_left' (List.length_map _ _),
    values]

/-! ### What `encode` writes for a byte buffer -/

/-- The header alphabet `encode` writes for a byte buffer, as symbol values. -/
def headerAlphabet (sort : FreqSort) (data : List UInt8) : List Nat :=
  (sortedAlphabet sort (data.map UInt8.toNat)).map Letter.value

/-- The codes `encode` packs for a byte buffer: one per byte, in input order, in the tree of the
header alphabet. -/
def codeStream (sort : FreqSort) (data : List UInt8) : List Bool :=
  let tree := BinaryTree.build (headerAlphabet sort data)
  (data.map UInt8.toNat).flatMap (symbolCode tree (bitsNeeded tree.root.height))

/-- The context `decode` reads from what `encode sort 1 data` returns: the tree of the header
alphabet, its `max_depth_bits`, the counter, and the reader at the first byte after the alphabet. -/
def encodedContext (sort : FreqSort) (data : List UInt8) : Context :=
  let tree := BinaryTree.build (headerAlphabet sort data)
  ⟨bitsNeeded tree.root.height, bitPathSize 1, (codeStream sort data).length % 2 ^ 32, tree,
    ⟨2 + (headerAlphabet sort data).length, 0, 0, []⟩⟩

/-- The bytes `encode sort 1 data` returns: the header, the packed codes and the counter. -/
def encodedBytes (sort : FreqSort) (data : List UInt8) : List UInt8 :=
  encodeHeader (bitsNeeded (BinaryTree.build (headerAlphabet sort data)).root.height)
      (sortedAlphabet sort (data.map UInt8.toNat)) ++
    packBits (codeStream sort data) ++ le32 ((codeStream sort data).length % 2 ^ 32)

theorem encode_eq_encodedBytes (sort : FreqSort) (data : List UInt8) :
    encode sort 1 data = .ok (encodedBytes sort data) :=
  encode_bytes sort data

theorem codeStream_eq (sort : FreqSort) (data : List UInt8) :
    codeStream sort data = (data.map UInt8.toNat).flatMap
      (symbolCode (encodedContext sort data).tree (encodedContext sort data).maxDepthBits) := rfl

/-- The last four bytes of `encode` hold the number of code bits modulo `2 ^ 32`, for every buffer. -/
theorem drop_encodedBytes (sort : FreqSort) (data : List UInt8) :
    (encodedBytes sort data).drop ((encodedBytes sort data).length - 4) =
      le32 ((codeStream sort data).length % 2 ^ 32) :=
  List.drop_left' (by simp only [encodedBytes, List.length_append, le32_length]; omega)

theorem headerAlphabet_bytes (sort : FreqSort) {data : List UInt8} (nonempty : data ≠ []) :
    0 < (headerAlphabet sort data).length ∧ (headerAlphabet sort data).length ≤ 256 ∧
      ∀ v, v ∈ headerAlphabet sort data ↔ v ∈ data.map UInt8.toNat := by
  obtain ⟨positive, bounded⟩ := dedup_length_bytes nonempty
  rw [headerAlphabet, List.length_map, sortedAlphabet_bytes_length]
  exact ⟨positive, bounded, (sortedAlphabet_values sort _).2.1⟩

/-- The encoded context of a non-empty byte buffer: between one and 4 depth bits, enough for the
tree's height, which is at most 8. -/
theorem encodedContext_depthBits (sort : FreqSort) {data : List UInt8} (nonempty : data ≠ []) :
    (encodedContext sort data).maxDepthBits ≤ 4 ∧
      (encodedContext sort data).tree.root.height < 2 ^ (encodedContext sort data).maxDepthBits ∧
      (encodedContext sort data).tree.root.height ≤ 8 ∧ 0 < (encodedContext sort data).maxDepthBits := by
  obtain ⟨positive, bounded, -⟩ := headerAlphabet_bytes sort nonempty
  obtain ⟨-, -, low⟩ := build_height_le _ positive bounded
  exact ⟨bitsNeeded_le_of_lt (lt_of_le_of_lt low (by decide)) (by decide), lt_two_pow_bitsNeeded _, low,
    bitsNeeded_pos _⟩

/-- Every byte of a non-empty buffer is a symbol `decode` reads back under its encoded context. -/
theorem readable_encoded (sort : FreqSort) {data : List UInt8} (nonempty : data ≠ []) :
    ∀ v ∈ data.map UInt8.toNat, (encodedContext sort data).Readable v := by
  intro v inside
  obtain ⟨-, -, members⟩ := headerAlphabet_bytes sort nonempty
  obtain ⟨-, fits, low, -⟩ := encodedContext_depthBits sort nonempty
  have present := (BinaryTree.mem_build_values _ v).mpr ((members v).mpr inside)
  cases found : (encodedContext sort data).tree.root.pathTo v with
  | none => exact absurd present ((Node.pathTo_eq_none_iff _ _).mp found)
  | some path =>
      have deep := Node.length_le_height_of_pathTo found
      exact ⟨path, found, by omega, by simp only [encodedContext, bitPathSize]; omega⟩

/-- **`decode` parses what `encode` writes** for a non-empty byte buffer. -/
theorem parseHeader_encode (sort : FreqSort) {data : List UInt8} (nonempty : data ≠ []) :
    parseHeader 1 (encodedBytes sort data) = .ok (encodedContext sort data) ∧
      codeStream sort data <+: (byteBits (encodedBytes sort data)).drop
        (encodedContext sort data).start.position := by
  obtain ⟨positive, bounded, members⟩ := headerAlphabet_bytes sort nonempty
  obtain ⟨narrow, -⟩ := encodedContext_depthBits sort nonempty
  have size := sortedAlphabet_bytes_length sort data
  have shape : encodedBytes sort data =
      [UInt8.ofNat (encodedContext sort data).maxDepthBits,
        UInt8.ofNat ((headerAlphabet sort data).length - 1)] ++
        (headerAlphabet sort data).map UInt8.ofNat ++ packBits (codeStream sort data) ++
        le32 ((codeStream sort data).length % 2 ^ 32) := by
    rw [encodedBytes,
      encodeHeader_eq _ (size ▸ dedup_length_bytes nonempty).1 (size ▸ dedup_length_bytes nonempty).2]
    simp only [headerAlphabet, List.length_map]
    rfl
  have bytes : ∀ v ∈ headerAlphabet sort data, v < 256 := fun v inside => by
    obtain ⟨byte, -, rfl⟩ := List.mem_map.mp ((members v).mp inside)
    exact byte.toNat_lt_size
  refine ⟨by rw [shape, parseHeader_frame 1 _ _ _ _ (by omega) positive bounded bytes, Nat.mod_mod]; rfl,
    ?_⟩
  rw [shape, List.append_assoc _ (packBits _), byteBits_append, byteBits_append]
  refine (prefix_byteBits_packBits _).trans ?_
  rw [List.drop_left' (by simp [encodedContext, Reader.position]; omega), byteBits_append]
  exact List.prefix_append _ _

/-! ### `decode` of `encode` -/

/-- **The loop of `decode` on what `encode` wrote**: it reads the codes of a prefix of the
buffer, one round each, and stops at the first code boundary at or past the counter. -/
theorem decodeLoop_encode (sort : FreqSort) {data : List UInt8} (nonempty : data ≠ []) :
    ∃ taken rest, data.map UInt8.toNat = taken ++ rest ∧
      (codeStream sort data).length % 2 ^ 32 ≤
        (taken.flatMap (symbolCode (encodedContext sort data).tree
          (encodedContext sort data).maxDepthBits)).length ∧
      decodeLoop (encodedBytes sort data) (encodedContext sort data)
          ((encodedContext sort data).writtenBits + 1) (encodedContext sort data).start =
        .ok { (encodedContext sort data).start.skip (taken.flatMap (symbolCode
            (encodedContext sort data).tree (encodedContext sort data).maxDepthBits)).length with
          occurrences := taken.map Nat.cast } := by
  have start : (encodedContext sort data).start.Aligned := Nat.succ_pos 7
  obtain ⟨narrow, -, -, reads⟩ := encodedContext_depthBits sort nonempty
  have ends := (@decodeLoop_ends (encodedBytes sort data) _ reads _ _ start
    (Nat.lt_succ_of_le (Nat.sub_le _ _))).2 (data.map UInt8.toNat).length
  obtain ⟨taken, rest, split, stopped, loop⟩ := decodeLoop_codes (by omega) _
    (readable_encoded sort nonempty) start (parseHeader_encode sort nonempty).2
    ((Nat.mod_le _ _).trans (Nat.le_add_left _ _)) _ (Nat.lt_add_of_pos_left (Nat.succ_pos _))
  exact ⟨taken, rest, split, by simpa [encodedContext] using stopped, ends.symm.trans loop⟩

/-- `decode` turns the occurrences of a byte buffer's values back into the buffer: each value
fits its `byte_t`. -/
theorem decode_output (bytes : List UInt8) :
    ((bytes.map UInt8.toNat).map (Nat.cast : Nat → Int)).map
      (fun value => UInt8.ofNat (value % 256).toNat) = bytes := by
  induction bytes with
  | nil => rfl
  | cons byte rest ih =>
      have small : byte.toNat < 256 := byte.toNat_lt_size
      simp only [List.map_cons, ih, Int.emod_eq_of_lt (Int.ofNat_nonneg _) (by omega : (byte.toNat : Int) < 256),
        Int.toNat_ofNat, ofNat_toNat_byte]

/-- A prefix of the values of a buffer is the values of a prefix of the buffer. -/
theorem prefix_values {data : List UInt8} {taken rest : List Nat}
    (split : data.map UInt8.toNat = taken ++ rest) : taken = (data.take taken.length).map UInt8.toNat := by
  rw [List.map_take, split, List.take_left]

/-- `decode` of `encode`, once the loop has a result. -/
theorem decode_encode_eq (sort : FreqSort) {data : List UInt8} (nonempty : data ≠ []) {r : Reader}
    (loop : decodeLoop (encodedBytes sort data) (encodedContext sort data)
      ((encodedContext sort data).writtenBits + 1) (encodedContext sort data).start = .ok r) :
    decode 1 (encodedBytes sort data) = .ok (r.occurrences.map fun value => UInt8.ofNat (value % 256).toNat) := by
  rw [decode, (parseHeader_encode sort nonempty).1, ok_bind, loop, ok_bind]
  rfl

/-- Codes of at least `low` and at most `high` bits each. -/
theorem length_flatMap_bounds {α : Type} (code : α → List Bool) (low high : Nat) (values : List α)
    (bounds : ∀ v ∈ values, low ≤ (code v).length ∧ (code v).length ≤ high) :
    values.length * low ≤ (values.flatMap code).length ∧ (values.flatMap code).length ≤ values.length * high := by
  induction values with
  | nil => simp
  | cons v values ih =>
      have here := bounds v (List.mem_cons_self _ _)
      have later := ih fun w inside => bounds w (List.mem_cons_of_mem _ inside)
      simp only [List.flatMap_cons, List.length_append, List.length_cons, Nat.succ_mul]
      omega

/-- Each code of a non-empty buffer has `max_depth_bits` bits and at most 8 more. -/
theorem codeStream_length (sort : FreqSort) {data : List UInt8} (nonempty : data ≠ []) (values : List Nat)
    (inside : ∀ v ∈ values, v ∈ data.map UInt8.toNat) :
    values.length * (encodedContext sort data).maxDepthBits ≤
      (values.flatMap (symbolCode (encodedContext sort data).tree (encodedContext sort data).maxDepthBits)).length ∧
    (values.flatMap (symbolCode (encodedContext sort data).tree (encodedContext sort data).maxDepthBits)).length ≤
      values.length * ((encodedContext sort data).maxDepthBits + 8) := by
  obtain ⟨-, -, low, -⟩ := encodedContext_depthBits sort nonempty
  refine length_flatMap_bounds _ _ _ values fun v member => ?_
  obtain ⟨path, found, -⟩ := readable_encoded sort nonempty v (inside v member)
  have deep := Node.length_le_height_of_pathTo found
  rw [symbolCode_of_pathTo found, List.length_append, lowBits_length]
  omega

/-- The codes of a buffer split as its values do. -/
theorem codeStream_split (sort : FreqSort) {data : List UInt8} {taken rest : List Nat}
    (split : data.map UInt8.toNat = taken ++ rest) :
    (codeStream sort data).length =
      (taken.flatMap (symbolCode (encodedContext sort data).tree (encodedContext sort data).maxDepthBits)).length +
      (rest.flatMap (symbolCode (encodedContext sort data).tree (encodedContext sort data).maxDepthBits)).length := by
  rw [codeStream_eq, split, List.flatMap_append, List.length_append]

/-- **`decode` reads back the bytes `encode` writes for a non-empty buffer of fewer than `2 ^ 28`
bytes.** Its codes have at most 12 bits each, so the counter does not wrap, and each has at least
one depth bit, so the loop stops after the last one. -/
theorem decode_encodedBytes (sort : FreqSort) {data : List UInt8} (nonempty : data ≠ [])
    (short : data.length < 2 ^ 28) : decode 1 (encodedBytes sort data) = .ok data := by
  obtain ⟨narrow, -, -, reads⟩ := encodedContext_depthBits sort nonempty
  obtain ⟨taken, rest, split, stopped, loop⟩ := decodeLoop_encode sort nonempty
  have fits : (codeStream sort data).length < 2 ^ 32 := by
    have upper := (codeStream_length sort nonempty _ fun _ inside => inside).2
    rw [← codeStream_eq, List.length_map] at upper
    calc (codeStream sort data).length ≤ data.length * 12 :=
          upper.trans (Nat.mul_le_mul_left _ (by omega))
      _ < 2 ^ 32 := by omega
  have restBits := (codeStream_length sort nonempty rest fun v inside =>
    split ▸ List.mem_append_right _ inside).1
  have total := codeStream_split sort split
  rw [Nat.mod_eq_of_lt fits] at stopped
  have none : rest = [] := by
    have empty : rest.length * (encodedContext sort data).maxDepthBits = 0 := by omega
    exact List.length_eq_zero.mp ((Nat.mul_eq_zero.mp empty).resolve_right (by omega))
  rw [none, List.append_nil] at split
  rw [decode_encode_eq sort nonempty loop, ← split, decode_output]

/-- **Round trip**: every non-empty byte buffer of fewer than `2 ^ 28` bytes decodes back to itself,
a buffer of one distinct byte (a one-node tree, `max_depth_bits = BitsNeeded(0) = 1`) included. -/
theorem decode_encode_nonempty (sort : FreqSort) (data : List UInt8) (nonempty : data ≠ [])
    (short : data.length < 2 ^ 28) : (encode sort 1 data >>= decode 1) = .ok data := by
  rw [encode_eq_encodedBytes, ok_bind, decode_encodedBytes sort nonempty short]

theorem decode_encode_nonempty_example :
    ([0x41] : List UInt8) ≠ [] ∧ ([0x41] : List UInt8).length < 2 ^ 28 ∧
      (encode stdSort 1 [0x41] >>= decode 1) = .ok [0x41] :=
  ⟨by decide, by decide, decode_encode_nonempty stdSort _ (by decide) (by decide)⟩

/-- **Round trip** for a byte buffer with two or more distinct bytes and fewer than `2 ^ 28` bytes. -/
theorem decode_encode (sort : FreqSort) (data : List UInt8) (distinct : 2 ≤ data.dedup.length)
    (short : data.length < 2 ^ 28) : (encode sort 1 data >>= decode 1) = .ok data := by
  have nonempty : data ≠ [] := by rintro rfl; simp at distinct
  rw [encode_eq_encodedBytes, ok_bind, decode_encodedBytes sort nonempty short]

theorem decode_encode_example :
    2 ≤ ([0x41, 0x42, 0x41, 0x43] : List UInt8).dedup.length ∧
      ([0x41, 0x42, 0x41, 0x43] : List UInt8).length < 2 ^ 28 ∧
      (encode stdSort 1 [0x41, 0x42, 0x41, 0x43] >>= decode 1) = .ok [0x41, 0x42, 0x41, 0x43] :=
  ⟨by decide, by decide, decode_encode stdSort _ (by decide) (by decide)⟩

/-- **`decode` of `encode` reads only inside the buffer**: for every non-empty byte buffer, of any
length, it returns a result, so none of its reads falls outside `encode`'s output, and that result
is a prefix of the buffer. -/
theorem decode_encode_inBounds (sort : FreqSort) (data : List UInt8) (nonempty : data ≠ []) :
    ∃ out, (encode sort 1 data >>= decode 1) = .ok out ∧ out <+: data := by
  obtain ⟨taken, rest, split, -, loop⟩ := decodeLoop_encode sort nonempty
  refine ⟨_, by rw [encode_eq_encodedBytes, ok_bind, decode_encode_eq sort nonempty loop], ?_⟩
  rw [prefix_values split, decode_output]
  exact List.take_prefix _ _

theorem decode_encode_inBounds_example :
    ([0x41, 0x42, 0x41] : List UInt8) ≠ [] ∧
      ∃ out, (encode stdSort 1 [0x41, 0x42, 0x41] >>= decode 1) = .ok out ∧ out <+: [0x41, 0x42, 0x41] :=
  ⟨by decide, decode_encode_inBounds stdSort _ (by decide)⟩

/-- `encode` of the empty buffer: the fresh tree's one node gives `BitsNeeded(0) = 1` depth bit,
there are no letters, so `alphabet.size() - 1` wraps and its low byte is 255, and the counter is 0. -/
theorem encode_nil (sort : FreqSort) : encode sort 1 [] = .ok [1, 255, 0, 0, 0, 0] := by
  have empty : sortedAlphabet sort [] = [] := (sort.perm []).eq_nil
  simp only [encode_eq_encodedBytes, encodedBytes, codeStream, headerAlphabet, List.map_nil, empty]
  rfl

/-- **The empty buffer**: for every sort, `encode` writes a header that declares 256 letters in a
six-byte buffer, and the alphabet loop of `decode` reads `data[6]`, past the end. -/
theorem decode_encode_nil (sort : FreqSort) :
    encode sort 1 [] = .ok [1, 255, 0, 0, 0, 0] ∧
      (encode sort 1 [] >>= decode 1) = .error (.readOutOfBounds 6) := by
  rw [encode_nil, ok_bind]
  exact ⟨rfl, by decide⟩

/-! ### The trailing counter -/

/-- Every code has at least one bit. -/
theorem length_le_codeStream (sort : FreqSort) (data : List UInt8) :
    data.length ≤ (codeStream sort data).length := by
  rcases eq_or_ne data [] with rfl | nonempty
  · exact Nat.zero_le _
  have reads := (encodedContext_depthBits sort nonempty).2.2.2
  have lower := (codeStream_length sort nonempty _ fun _ inside => inside).1
  rw [← codeStream_eq, List.length_map] at lower
  exact (Nat.le_mul_of_pos_right _ reads).trans lower

/-- **The trailing counter**: for every buffer `encode` returns, and its last four bytes read back
as the number of code bits modulo `2 ^ 32`. When that number is below `2 ^ 32`, the loop of
`decode` on a non-empty buffer stops with `bits_read` equal to it, right after the last code. -/
theorem encode_counter (sort : FreqSort) (data : List UInt8) :
    ∃ out, encode sort 1 data = .ok out ∧
      readLe (out.drop (out.length - 4)) = (codeStream sort data).length % 2 ^ 32 ∧
      (data ≠ [] → (codeStream sort data).length < 2 ^ 32 →
        ∃ ctx r, parseHeader 1 out = .ok ctx ∧ decodeLoop out ctx (ctx.writtenBits + 1) ctx.start = .ok r ∧
          r.bitsRead = (codeStream sort data).length) := by
  refine ⟨_, encode_eq_encodedBytes sort data, by rw [drop_encodedBytes, readLe_le32, Nat.mod_mod],
    fun nonempty fits => ?_⟩
  obtain ⟨taken, rest, split, stopped, loop⟩ := decodeLoop_encode sort nonempty
  have total := codeStream_split sort split
  rw [Nat.mod_eq_of_lt fits] at stopped
  exact ⟨_, _, (parseHeader_encode sort nonempty).1, loop, by show 0 + _ = _; omega⟩

theorem encode_counter_example :
    ∃ out, encode stdSort 1 [0x41, 0x42] = .ok out ∧
      readLe (out.drop (out.length - 4)) = (codeStream stdSort [0x41, 0x42]).length % 2 ^ 32 ∧
      (([0x41, 0x42] : List UInt8) ≠ [] → (codeStream stdSort [0x41, 0x42]).length < 2 ^ 32 →
        ∃ ctx r, parseHeader 1 out = .ok ctx ∧ decodeLoop out ctx (ctx.writtenBits + 1) ctx.start = .ok r ∧
          r.bitsRead = (codeStream stdSort [0x41, 0x42]).length) :=
  encode_counter stdSort [0x41, 0x42]

/-- For every sort, `2 ^ 32` bytes `0x41` and one byte `0x42` make more than `2 ^ 32` code bits,
at least one per byte, and the trailing counter holds their number modulo `2 ^ 32`. -/
theorem counter_ne_codeStream (sort : FreqSort) :
    2 ^ 32 < (codeStream sort (List.replicate (2 ^ 32) 0x41 ++ [0x42])).length ∧
      ∃ out, encode sort 1 (List.replicate (2 ^ 32) 0x41 ++ [0x42]) = .ok out ∧
        readLe (out.drop (out.length - 4)) ≠ (codeStream sort (List.replicate (2 ^ 32) 0x41 ++ [0x42])).length := by
  have lower := length_le_codeStream sort (List.replicate (2 ^ 32) 0x41 ++ [0x42])
  rw [List.length_append, List.length_replicate, List.length_singleton] at lower
  refine ⟨by omega, _, encode_eq_encodedBytes _ _, ?_⟩
  rw [drop_encodedBytes, readLe_le32, Nat.mod_mod]
  exact Nat.ne_of_lt (Nat.lt_of_lt_of_le (Nat.mod_lt _ (by norm_num)) (by omega))

/-- **The counter wraps**: `2 ^ 32` bytes `0x41` and one byte `0x42` make more than `2 ^ 32` code
bits, and the trailing counter holds their number modulo `2 ^ 32`, not the number. -/
theorem encode_counter_wraps :
    2 ^ 32 < (codeStream stdSort (List.replicate (2 ^ 32) 0x41 ++ [0x42])).length ∧
      ∃ out, encode stdSort 1 (List.replicate (2 ^ 32) 0x41 ++ [0x42]) = .ok out ∧
        readLe (out.drop (out.length - 4)) ≠ (codeStream stdSort (List.replicate (2 ^ 32) 0x41 ++ [0x42])).length :=
  counter_ne_codeStream stdSort

/-! ### The size of `encode` -/

/-- **`encode` writes at most 12 bits per byte, after at most 262 bytes of header and counter**:
two header bytes, one byte per distinct letter, the packed codes of at most `4 + 8` bits each, and
the four bytes of the counter. -/
theorem encode_length_le (sort : FreqSort) (data : List UInt8) :
    ∃ out, encode sort 1 data = .ok out ∧ out.length ≤ 262 + (12 * data.length + 7) / 8 := by
  refine ⟨_, encode_eq_encodedBytes sort data, ?_⟩
  rcases eq_or_ne data [] with rfl | nonempty
  · rw [Except.ok.inj ((encode_eq_encodedBytes sort []).symm.trans (encode_nil sort))]
    decide
  obtain ⟨-, bounded, -⟩ := headerAlphabet_bytes sort nonempty
  obtain ⟨narrow, -⟩ := encodedContext_depthBits sort nonempty
  have upper := (codeStream_length sort nonempty _ fun _ inside => inside).2
  rw [← codeStream_eq, List.length_map] at upper
  have codes : (codeStream sort data).length ≤ 12 * data.length :=
    calc (codeStream sort data).length ≤ data.length * ((encodedContext sort data).maxDepthBits + 8) := upper
      _ ≤ data.length * 12 := Nat.mul_le_mul_left _ (by omega)
      _ = 12 * data.length := Nat.mul_comm _ _
  have total : (encodedBytes sort data).length =
      2 + (headerAlphabet sort data).length + ((codeStream sort data).length + 7) / 8 + 4 := by
    simp only [encodedBytes, encodeHeader, headerAlphabet, List.length_append, List.length_map,
      packBits_length, le32_length]
    rfl
  omega

/-! ### Wider symbols -/

/-- **Wider symbols do not round-trip.** For `XKC<uint16_t>`, `[0x41, 0, 0x41, 0, 0x42, 0]` holds
the symbols `0x0041, 0x0041, 0x0042`. The header writes each letter in one byte and `decode`
pushes one byte per symbol, so the result is `[0x41, 0x41, 0x42]`. For `XKC<uint32_t>`,
`bit_path_t` has `max() + 1 = 0` bits, and `encode` stops in `path_info` at its first write,
`bit_path[0]` for the symbol `0x42` below the root. -/
theorem decode_encode_wide (sort : FreqSort) :
    (encode sort 2 [0x41, 0, 0x41, 0, 0x42, 0] >>= decode 2) = .ok [0x41, 0x41, 0x42] ∧
      encode sort 4 [0x41, 0, 0, 0, 0x41, 0, 0, 0, 0x42, 0, 0, 0] = .error (.bitPathOutOfRange 0) := by
  have two := encode_congr_sort sort stdSort 2 [0x41, 0, 0x41, 0, 0x42, 0]
    (by rw [sortedAlphabet_of_strict sort _ (by decide), sortedAlphabet_of_strict stdSort _ (by decide)])
  have four := encode_congr_sort sort stdSort 4 [0x41, 0, 0, 0, 0x41, 0, 0, 0, 0x42, 0, 0, 0]
    (by rw [sortedAlphabet_of_strict sort _ (by decide), sortedAlphabet_of_strict stdSort _ (by decide)])
  rw [two, four]
  exact ⟨by decide, by decide⟩

end XLib.XKC
