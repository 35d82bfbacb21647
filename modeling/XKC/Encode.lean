/-
**`XKC::encode`: the wire format, symbol by symbol.**

`encode` collapses the symbols into runs, tallies and sorts the alphabet, builds the tree, writes
the header and then, for every run, one `path_info` and `count` copies of its code, flushes the
last byte and appends the `uint32_t` bit counter. `path_info` writes `bit_path`, a bitset of
`numeric_limits<alphabet_T>::max() + 1` bits, so `encode` stops with a `Fault` where a write falls
past its end. `wireFormat` is the format of §6 written symbol
by symbol: each symbol's code is the low `max_depth_bits` bits of its node's depth and then the turns
of its path (`symbolCode`).

* `encode_eq`: for every input whose tree fits in `bit_path`, `encode` returns the header, then
  `packBits` of the codes of all symbols in input order, then the counter modulo `2 ^ 32`; one code
  per run occurrence is one code per symbol.
* `room_bytes`: for bytes the tree always fits, and `encode` returns (`encode_bytes`).
* `encode_eq_wireFormat`: for a non-empty byte buffer, `encode` is `wireFormat` of its header
  alphabet.
* `collapse_bytes`: the runs of a byte buffer spell it back, count 1 to 255 bytes each, and repeat a
  byte only after a full run.
* `encode_header`: `encode` returns, byte 1 is the number of distinct bytes less one, and the next bytes list each
  distinct byte once, by non-increasing count.
-/

import XKC.Writer
import XKC.Alphabet
import Mathlib.Data.List.Dedup
import Mathlib.Data.List.Count

namespace XLib.XKC

/-! ### The model of `encode` -/

/-- `view_as<alphabet_T*>(data)` for `size / sizeof(alphabet_T)` values: the buffer as
little-endian symbols of `width` bytes; bytes that do not fill a last symbol are not read. -/
def symbols (width : Nat) (data : List UInt8) : List Nat :=
  (List.range (data.length / width)).map fun index => readLe ((data.drop (width * index)).take width)

/-- The header: `max_depth_bits`, `alphabet.size() - 1` in `size_t` arithmetic, and each letter's
value, each `push_back` cutting its value to a `byte_t`. -/
def encodeHeader (maxDepthBits : Nat) (alphabet : List Letter) : List UInt8 :=
  [UInt8.ofNat maxDepthBits, UInt8.ofNat ((alphabet.length + (2 ^ 64 - 1)) % 2 ^ 64)] ++
    alphabet.map fun letter => UInt8.ofNat letter.value

/-- The emission loop on a `bit_path_t` of `size` bits: for each run, `path_info` once and
`method1` `count` times. -/
def emitOccurrences (size : Nat) (tree : BinaryTree) (maxDepthBits : Nat) :
    Writer → List Occurrence → Except Fault Writer
  | w, [] => .ok w
  | w, occurrence :: rest => do
      let (_, info) ← tree.pathInfo size PathInfo.zero occurrence.letterValue
      emitOccurrences size tree maxDepthBits
        ((List.range occurrence.count).foldl (fun w _ => Writer.method1 maxDepthBits w info) w) rest

/-- `XKC<alphabet_T>::encode(data, size)` for `sizeof(alphabet_T) = width`. The sort is any
`std::sort` (`FreqSort`). -/
def encode (sort : FreqSort) (width : Nat) (data : List UInt8) : Except Fault (List UInt8) := do
  let occurrences := collapse (symbols width data)
  let alphabet := sort.sort (buildAlphabet occurrences)
  let tree := BinaryTree.build (alphabet.map Letter.value)
  let maxDepthBits := bitsNeeded tree.root.height
  let w ← emitOccurrences (bitPathSize width) tree maxDepthBits
    ⟨encodeHeader maxDepthBits alphabet, 0, 0, 0⟩ occurrences
  return w.flush ++ le32 w.writtenBits

/-! ### The reference format -/

/-- The code of one symbol: the low `max_depth_bits` bits of its node's depth, least significant
first, then the turns of its path from the root. -/
def symbolCode (tree : BinaryTree) (maxDepthBits : Nat) (symbol : Nat) : List Bool :=
  let path := (tree.root.pathTo symbol).getD []
  lowBits maxDepthBits path.length ++ path

/-- The wire format of §6 for the header alphabet `alphabet` and the symbols `values`:
`[m, k - 1] ++ A ++ P ++ le32 (W mod 2 ^ 32)`, with one code per symbol in input order. -/
def wireFormat (alphabet values : List Nat) : List UInt8 :=
  let tree := BinaryTree.build alphabet
  let maxDepthBits := bitsNeeded tree.root.height
  let bits := values.flatMap (symbolCode tree maxDepthBits)
  [UInt8.ofNat maxDepthBits, UInt8.ofNat (alphabet.length - 1)] ++ alphabet.map UInt8.ofNat ++
    packBits bits ++ le32 (bits.length % 2 ^ 32)

/-! ### From runs to symbols -/

/-- With room in `bit_path`, the search from zero returns, and `method1` on its `PathInfo` emits the
symbol's code, found or not. -/
theorem codeBits_pathInfo (tree : BinaryTree) {size : Nat} (room : tree.root.height < size)
    (maxDepthBits symbol : Nat) :
    ∃ found info, tree.pathInfo size PathInfo.zero symbol = .ok (found, info) ∧
      Writer.codeBits maxDepthBits info = symbolCode tree maxDepthBits symbol := by
  rw [BinaryTree.pathInfo_zero _ room, symbolCode]
  cases tree.root.pathTo symbol with
  | none => exact ⟨_, _, rfl, rfl⟩
  | some path =>
      refine ⟨_, _, rfl, ?_⟩
      simp only [Writer.codeBits, PathInfo.follow, Nat.zero_add, Option.getD_some]
      refine congrArg _ (List.ext_getElem (by simp) fun index inside _ => ?_)
      simp [List.getD_eq_getElem?_getD, List.getElem?_eq_getElem (by simpa using inside)]

/-- `count` calls of `method1` on one `PathInfo` emit its code `count` times. -/
theorem repeat_method1 (maxDepthBits count : Nat) (w : Writer) (info : PathInfo) :
    (List.range count).foldl (fun w _ => Writer.method1 maxDepthBits w info) w =
      w.emitBits (List.replicate count (Writer.codeBits maxDepthBits info)).flatten := by
  induction count with
  | zero => rfl
  | succ count ih =>
      rw [List.range_succ, List.foldl_append, ih, List.foldl_cons, List.foldl_nil,
        Writer.method1_eq, ← Writer.emitBits_append, List.replicate_succ', List.flatten_append,
        List.flatten_singleton]

/-- **One code per run occurrence is one code per symbol**, when `bit_path` has room for the tree. -/
theorem emitOccurrences_eq {size : Nat} (tree : BinaryTree) (room : tree.root.height < size)
    (maxDepthBits : Nat) (w : Writer) (occurrences : List Occurrence) :
    emitOccurrences size tree maxDepthBits w occurrences =
      .ok (w.emitBits ((expand occurrences).flatMap (symbolCode tree maxDepthBits))) := by
  induction occurrences generalizing w with
  | nil => rfl
  | cons occurrence rest ih =>
      obtain ⟨found, info, search, code⟩ := codeBits_pathInfo tree room maxDepthBits occurrence.letterValue
      rw [emitOccurrences, search, ok_bind]
      dsimp only
      rw [ih, repeat_method1, code, ← Writer.emitBits_append, expand_cons, List.flatMap_append,
        List.flatMap_replicate]

/-- **`encode` is its header, then the packed codes of all symbols in input order, then the bit
counter modulo `2 ^ 32`**, when `bit_path` has room for its tree. -/
theorem encode_eq (sort : FreqSort) (width : Nat) (data : List UInt8)
    (room : (BinaryTree.build ((sortedAlphabet sort (symbols width data)).map Letter.value)).root.height <
      bitPathSize width) :
    encode sort width data =
      let alphabet := sortedAlphabet sort (symbols width data)
      let tree := BinaryTree.build (alphabet.map Letter.value)
      let maxDepthBits := bitsNeeded tree.root.height
      let bits := (symbols width data).flatMap (symbolCode tree maxDepthBits)
      .ok (encodeHeader maxDepthBits alphabet ++ packBits bits ++ le32 (bits.length % 2 ^ 32)) := by
  simp only [sortedAlphabet] at room ⊢
  simp only [encode, emitOccurrences_eq _ room, expand_collapse, ok_bind]
  have start : ∀ header : List UInt8, Writer.Holds ⟨header, 0, 0, 0⟩ header [] :=
    fun _ => ⟨rfl, rfl, rfl, by decide⟩
  rw [Writer.flush_emitBits (start _),
    Writer.writtenBits_emitBits _ (Nat.two_pow_pos 32), List.nil_append, Nat.zero_add]
  rfl

/-- `encode` depends on the sort only through the order it gives the alphabet. -/
theorem encode_congr_sort (first second : FreqSort) (width : Nat) (data : List UInt8)
    (same : sortedAlphabet first (symbols width data) = sortedAlphabet second (symbols width data)) :
    encode first width data = encode second width data := by
  simp only [encode, sortedAlphabet] at same ⊢
  rw [same]

/-! ### Where `encode` stops -/

/-- The emission loop stops only at a write past the end of `bit_path`. -/
theorem emitOccurrences_fault {size : Nat} {tree : BinaryTree} {maxDepthBits : Nat} {w : Writer}
    {occurrences : List Occurrence} {fault : Fault}
    (failed : emitOccurrences size tree maxDepthBits w occurrences = .error fault) :
    ∃ index, size ≤ index ∧ fault = .bitPathOutOfRange index := by
  induction occurrences generalizing w fault with
  | nil => cases failed
  | cons occurrence rest ih =>
      exact bind_error_of (fun _ => pathInfoAt_fault) (fun _ _ failed => ih failed) failed

/-- An emission loop that returned searched every run's symbol to the end. -/
theorem emitOccurrences_ok {size : Nat} {tree : BinaryTree} {maxDepthBits : Nat} {w w' : Writer}
    {occurrences : List Occurrence} (done : emitOccurrences size tree maxDepthBits w occurrences = .ok w') :
    ∀ occurrence ∈ occurrences, ∃ found, tree.pathInfo size PathInfo.zero occurrence.letterValue = .ok found := by
  induction occurrences generalizing w with
  | nil => simp
  | cons first rest ih =>
      obtain ⟨⟨found, info⟩, search, later⟩ := bind_eq_ok done
      intro occurrence inside
      rcases List.mem_cons.mp inside with rfl | inRest
      · exact ⟨_, search⟩
      · exact ih later occurrence inRest

/-- **`encode` stops only at a write past the end of `bit_path`.** -/
theorem encode_fault {sort : FreqSort} {width : Nat} {data : List UInt8} {fault : Fault}
    (failed : encode sort width data = .error fault) :
    ∃ index, bitPathSize width ≤ index ∧ fault = .bitPathOutOfRange index :=
  bind_error_of (fun _ => emitOccurrences_fault) (fun _ _ returned => by cases returned) failed

/-- An `encode` that returned searched every symbol of its input to the end. -/
theorem encode_ok_pathInfo {sort : FreqSort} {width : Nat} {data : List UInt8} {out : List UInt8}
    (done : encode sort width data = .ok out) :
    ∀ symbol ∈ symbols width data, ∃ found,
      (BinaryTree.build ((sortedAlphabet sort (symbols width data)).map Letter.value)).pathInfo
        (bitPathSize width) PathInfo.zero symbol = .ok found := by
  obtain ⟨w, emitted, -⟩ := bind_eq_ok done
  intro symbol inside
  rw [← expand_collapse (symbols width data), expand, List.mem_flatMap] at inside
  obtain ⟨occurrence, listed, repeated⟩ := inside
  rw [List.eq_of_mem_replicate repeated]
  exact emitOccurrences_ok emitted occurrence listed

theorem symbols_one (data : List UInt8) : symbols 1 data = data.map UInt8.toNat := by
  refine List.ext_getElem (by simp [symbols]) fun index inside _ => ?_
  have inData : index < data.length := by simpa [symbols] using inside
  simp only [symbols, List.getElem_map, List.getElem_range, Nat.one_mul]
  rw [List.drop_eq_getElem_cons inData]
  rfl

/-! ### Byte buffers -/

/-- **The runs of a byte buffer.** For every buffer, the runs of `encode`'s first loop spell the
buffer back, each counts between 1 and 255 bytes (so the `byte_t` count never wraps), and two
neighbouring runs carry the same byte only when the first is full. -/
theorem collapse_bytes (data : List UInt8) :
    expand (collapse (symbols 1 data)) = data.map UInt8.toNat ∧
      (∀ occurrence ∈ collapse (symbols 1 data), 1 ≤ occurrence.count ∧ occurrence.count ≤ 255) ∧
      (collapse (symbols 1 data)).Chain' fun first next =>
        first.letterValue = next.letterValue → first.count = 255 :=
  ⟨by rw [expand_collapse, symbols_one], count_collapse _, chain_collapse _⟩

/-- The header's size byte is `alphabet.size() - 1` without wrap-around once the alphabet has
between one and 256 letters. -/
theorem encodeHeader_eq {alphabet : List Letter} (maxDepthBits : Nat) (positive : 0 < alphabet.length)
    (bounded : alphabet.length ≤ 256) :
    encodeHeader maxDepthBits alphabet =
      [UInt8.ofNat maxDepthBits, UInt8.ofNat (alphabet.length - 1)] ++
        (alphabet.map Letter.value).map UInt8.ofNat := by
  rw [encodeHeader, List.map_map,
    show (alphabet.length + (2 ^ 64 - 1)) % 2 ^ 64 = alphabet.length - 1 by omega]
  rfl

/-- The distinct values of a byte buffer, one per distinct byte. -/
theorem firstSeen_bytes_length (data : List UInt8) :
    (firstSeen (data.map UInt8.toNat)).length = data.dedup.length := by
  have same : (firstSeen (data.map UInt8.toNat)).Perm (data.dedup.map UInt8.toNat) :=
    (List.perm_ext_iff_of_nodup (nodup_firstSeen _)
      ((List.nodup_dedup data).map fun _ _ => UInt8.toNat.inj)).mpr fun value => by
        simp [mem_firstSeen]
  simpa using same.length_eq

/-- A byte buffer has at most 256 distinct bytes. -/
theorem dedup_length_le_bytes (data : List UInt8) : data.dedup.length ≤ 256 := by
  rw [← firstSeen_bytes_length]
  refine (List.subperm_of_subset (nodup_firstSeen _) fun value inside => ?_).length_le.trans
    (List.length_range 256).le
  obtain ⟨byte, -, rfl⟩ := List.mem_map.mp ((mem_firstSeen _ _).mp inside)
  exact List.mem_range.mpr byte.toNat_lt_size

/-- A non-empty byte buffer has between one and 256 distinct bytes. -/
theorem dedup_length_bytes {data : List UInt8} (nonempty : data ≠ []) :
    0 < data.dedup.length ∧ data.dedup.length ≤ 256 := by
  refine ⟨?_, dedup_length_le_bytes data⟩
  obtain ⟨byte, rest, rfl⟩ := List.exists_cons_of_ne_nil nonempty
  exact List.length_pos_of_mem (List.mem_dedup.mpr (List.mem_cons_self byte rest))

theorem sortedAlphabet_bytes_length (sort : FreqSort) (data : List UInt8) :
    (sortedAlphabet sort (data.map UInt8.toNat)).length = data.dedup.length := by
  rw [(sortedAlphabet_values sort _).2.2.2, firstSeen_bytes_length]

/-- The tree of an alphabet of one to 256 letters is live and at most 8 high. -/
theorem build_height_le (alphabet : List Nat) (positive : 0 < alphabet.length)
    (bounded : alphabet.length ≤ 256) :
    (BinaryTree.build alphabet).root ≠ .null ∧
      (BinaryTree.build alphabet).root.height = Nat.log 2 alphabet.length ∧
      (BinaryTree.build alphabet).root.height ≤ 8 := by
  obtain ⟨value, rest, rfl⟩ := List.exists_cons_of_length_pos positive
  obtain ⟨live, balanced, size⟩ := BinaryTree.build_cons_root value rest
  have height : (BinaryTree.build (value :: rest)).root.height = Nat.log 2 (value :: rest).length := by
    rw [Node.height_eq_log balanced live, size, List.length_cons]
  refine ⟨live, height, ?_⟩
  rw [height, show 8 = Nat.log 2 (2 ^ 8) by rw [Nat.log_pow (by norm_num)]]
  exact Nat.log_mono_right bounded

/-- **`bit_path` has room for the tree of every byte buffer**: its alphabet has at most 256
letters, so the tree is at most 8 high, below the 256 bits of `bitset<256>`. -/
theorem room_bytes (sort : FreqSort) (data : List UInt8) :
    (BinaryTree.build ((sortedAlphabet sort (symbols 1 data)).map Letter.value)).root.height < bitPathSize 1 := by
  rw [symbols_one]
  by_cases empty : (sortedAlphabet sort (data.map UInt8.toNat)).map Letter.value = []
  · rw [empty, BinaryTree.build_nil]
    decide
  · have bounded := dedup_length_le_bytes data
    rw [← sortedAlphabet_bytes_length sort, ← List.length_map _ Letter.value] at bounded
    have low := (build_height_le _ (List.length_pos.mpr empty) bounded).2.2
    exact lt_of_le_of_lt low (by decide)

/-- For a byte buffer `encode` returns: its header, the packed codes and the counter. -/
theorem encode_bytes (sort : FreqSort) (data : List UInt8) :
    encode sort 1 data =
      let alphabet := sortedAlphabet sort (data.map UInt8.toNat)
      let tree := BinaryTree.build (alphabet.map Letter.value)
      let maxDepthBits := bitsNeeded tree.root.height
      let bits := (data.map UInt8.toNat).flatMap (symbolCode tree maxDepthBits)
      .ok (encodeHeader maxDepthBits alphabet ++ packBits bits ++ le32 (bits.length % 2 ^ 32)) := by
  rw [encode_eq sort 1 data (room_bytes sort data), symbols_one]

/-- **For a non-empty byte buffer, `encode` is the wire format of §6 computed symbol by symbol
from its header alphabet.** -/
theorem encode_eq_wireFormat (sort : FreqSort) (data : List UInt8) (nonempty : data ≠ []) :
    encode sort 1 data =
      .ok (wireFormat ((sortedAlphabet sort (data.map UInt8.toNat)).map Letter.value)
        (data.map UInt8.toNat)) := by
  obtain ⟨positive, bounded⟩ := dedup_length_bytes nonempty
  rw [← sortedAlphabet_bytes_length sort] at positive bounded
  rw [encode_bytes]
  simp only [encodeHeader_eq _ positive bounded, wireFormat, List.length_map]

theorem encode_eq_wireFormat_example :
    ([0x41, 0x42, 0x41] : List UInt8) ≠ [] ∧
      encode stdSort 1 [0x41, 0x42, 0x41] =
        .ok (wireFormat ((sortedAlphabet stdSort ([0x41, 0x42, 0x41].map UInt8.toNat)).map Letter.value)
          ([0x41, 0x42, 0x41].map UInt8.toNat)) :=
  ⟨by decide, encode_eq_wireFormat stdSort _ (by decide)⟩

/-- The header alphabet of a byte buffer, read back as bytes, still spells the letter values. -/
theorem alphabet_bytes (sort : FreqSort) (data : List UInt8) :
    (sortedAlphabet sort (data.map UInt8.toNat)).map Letter.value =
      (((sortedAlphabet sort (data.map UInt8.toNat)).map Letter.value).map UInt8.ofNat).map
        UInt8.toNat := by
  rw [List.map_map]
  refine (List.map_id _).symm.trans (List.map_congr_left fun value inside => ?_)
  obtain ⟨byte, -, rfl⟩ := List.mem_map.mp (((sortedAlphabet_values sort _).2.1 value).mp inside)
  simp

/-- **The header of a non-empty byte buffer**: `encode` returns, and with `k` the number of distinct
bytes, byte 1 is `k - 1` and bytes `2 .. k + 1` list each distinct byte once, by non-increasing
count. -/
theorem encode_header (sort : FreqSort) (data : List UInt8) (nonempty : data ≠ []) :
    0 < data.dedup.length ∧ data.dedup.length ≤ 256 ∧ ∃ out, encode sort 1 data = .ok out ∧
      out[1]? = some (UInt8.ofNat (data.dedup.length - 1)) ∧
      ((out.drop 2).take data.dedup.length).Nodup ∧
      (∀ byte, byte ∈ (out.drop 2).take data.dedup.length ↔ byte ∈ data) ∧
      ((out.drop 2).take data.dedup.length).Pairwise (fun a b => data.count b ≤ data.count a) := by
  obtain ⟨positive, bounded⟩ := dedup_length_bytes nonempty
  have size := sortedAlphabet_bytes_length sort data
  have shape : ∃ first rest, encode sort 1 data = .ok ([first, UInt8.ofNat (data.dedup.length - 1)] ++
      ((sortedAlphabet sort (data.map UInt8.toNat)).map Letter.value).map UInt8.ofNat ++ rest) := by
    rw [encode_bytes]
    simp only [encodeHeader_eq _ (size ▸ positive) (size ▸ bounded), size]
    exact ⟨_, _, congrArg _ (List.append_assoc _ _ _)⟩
  obtain ⟨first, rest, shape⟩ := shape
  have length : (((sortedAlphabet sort (data.map UInt8.toNat)).map Letter.value).map
      UInt8.ofNat).length = data.dedup.length := by simp [size]
  obtain ⟨distinct, members, ordered, -⟩ := sortedAlphabet_values sort (data.map UInt8.toNat)
  rw [alphabet_bytes] at distinct members ordered
  refine ⟨positive, bounded, _, shape, ?_⟩
  generalize ((sortedAlphabet sort (data.map UInt8.toNat)).map Letter.value).map UInt8.ofNat = header
    at distinct members ordered length
  have injective : Function.Injective UInt8.toNat := fun _ _ => UInt8.toNat.inj
  simp only [List.cons_append, List.nil_append, List.getElem?_cons_succ, List.getElem?_cons_zero,
    List.drop_succ_cons, List.drop_zero, ← length, List.take_left, true_and]
  refine ⟨distinct.of_map _, fun byte => ?_, ?_⟩
  · simpa [List.mem_map_of_injective injective] using members byte.toNat
  · simpa [List.pairwise_map, List.count_map_of_injective _ _ injective] using ordered

theorem encode_header_example :
    ([0x42, 0x41, 0x41] : List UInt8) ≠ [] ∧
      0 < ([0x42, 0x41, 0x41] : List UInt8).dedup.length ∧
      ([0x42, 0x41, 0x41] : List UInt8).dedup.length ≤ 256 ∧
      ∃ out, encode stdSort 1 [0x42, 0x41, 0x41] = .ok out ∧
        out[1]? = some (UInt8.ofNat (([0x42, 0x41, 0x41] : List UInt8).dedup.length - 1)) ∧
        ((out.drop 2).take ([0x42, 0x41, 0x41] : List UInt8).dedup.length).Nodup ∧
        (∀ byte, byte ∈ (out.drop 2).take ([0x42, 0x41, 0x41] : List UInt8).dedup.length ↔
          byte ∈ ([0x42, 0x41, 0x41] : List UInt8)) ∧
        ((out.drop 2).take ([0x42, 0x41, 0x41] : List UInt8).dedup.length).Pairwise
          (fun a b => ([0x42, 0x41, 0x41] : List UInt8).count b ≤ ([0x42, 0x41, 0x41] : List UInt8).count a) :=
  ⟨by decide, encode_header stdSort _ (by decide)⟩

end XLib.XKC
