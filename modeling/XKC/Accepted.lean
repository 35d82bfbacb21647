/-
**What `decode` accepts: every buffer, hostile ones included.**

`decode` trusts its input: it reads whatever header, counter and bits the buffer holds. The lemmas of
`RoundTrip` run it forwards, from codes known to be in the buffer (`decodeLoop_codes`). Here it runs
backwards, from a run that returned: every round read `max_depth_bits` depth bits, as many path bits
as they count, and a path that `find_value` follows to a node (`decodeStep_sound`), and the loop
stopped at the first round boundary at or past the counter (`decodeLoop_sound`). Together the two
directions give the language of `decode`.

* `decode_letters`: every byte `decode` returns is one of the letters the header declares, on every
  buffer and for every symbol width;
* `decode_length`: every round reads the `D[0]` depth bits and all but the last start below the
  counter, so the output has at most `⌈W / D[0]⌉` bytes;
* `decode_eq_ok_iff`: when the declared letters are distinct and the tree's depths and paths fit,
  `decode` returns exactly the string the buffer `Spells`: the declared letters whose codes, the
  codes `encode` writes for that tree, begin the bits after the header, up to the first code
  boundary at or past the counter.
-/

import XKC.RoundTrip

namespace XLib.XKC

/-! ### The header a buffer declares -/

/-- The letters `decode` reads: `D[1] + 1` bytes from byte 2 on. -/
def declaredLetters (data : List UInt8) : List UInt8 := (data.drop 2).take ((data.getD 1 0).toNat + 1)

/-- The trailing counter `decode` reads: the little-endian `uint32_t` in the last four bytes. -/
def declaredCounter (data : List UInt8) : Nat := readLe (data.drop (data.length - 4))

/-- The context `decode` sets up from a buffer's header: `D[0]` depth bits, the counter, the tree of
the declared letters, and the reader on the first byte after them. -/
def declaredContext (width : Nat) (data : List UInt8) : Context :=
  ⟨(data.getD 0 0).toNat, bitPathSize width, declaredCounter data,
    BinaryTree.build ((declaredLetters data).map UInt8.toNat), ⟨2 + ((data.getD 1 0).toNat + 1), 0, 0, []⟩⟩

/-- The codes that the tree of the declared letters and `D[0]` depth bits give the bytes `out`, in
order: the stream `encode` writes for them. -/
def declaredCodes (data out : List UInt8) : List Bool :=
  (out.map UInt8.toNat).flatMap
    (symbolCode (BinaryTree.build ((declaredLetters data).map UInt8.toNat)) (data.getD 0 0).toNat)

theorem declaredLetters_length {data : List UInt8} (inside : 2 + ((data.getD 1 0).toNat + 1) ≤ data.length) :
    (declaredLetters data).length = (data.getD 1 0).toNat + 1 := by
  rw [declaredLetters, List.length_take, List.length_drop]
  omega

theorem readAt_sound {data : List UInt8} {index : Nat} {byte : UInt8} (read : readAt data index = .ok byte) :
    data[index]? = some byte := by
  unfold readAt at read
  split at read
  · rename_i here; cases read; exact here
  · cases read

/-- A successful run of `count ≥ 1` reads from byte `index` on stays inside the buffer and returns the
bytes there. -/
theorem readAlphabet_sound {data bytes : List UInt8} {count index : Nat}
    (read : readAlphabet data count index = .ok bytes) :
    (0 < count → index + count ≤ data.length) ∧ bytes = (data.drop index).take count := by
  induction count generalizing index bytes with
  | zero => cases read; simp
  | succ count ih =>
      unfold readAlphabet at read
      split at read
      · cases read
      rename_i byte here
      split at read
      · cases read
      rename_i rest later
      cases read
      obtain ⟨small, rfl⟩ := List.getElem?_eq_some_iff.mp (readAt_sound here)
      obtain ⟨inside, rfl⟩ := ih later
      refine ⟨fun _ => ?_, by rw [List.drop_eq_getElem_cons small, List.take_succ_cons]⟩
      rcases Nat.eq_zero_or_pos count with rfl | positive
      · omega
      · have := inside positive; omega

/-- **The header `decode` parsed**: a buffer that passes the header holds its declared letters and
a counter, and the context is read off it. -/
theorem parseHeader_sound {width : Nat} {data : List UInt8} {ctx : Context}
    (parsed : parseHeader width data = .ok ctx) :
    2 + ((data.getD 1 0).toNat + 1) ≤ data.length ∧ ctx = declaredContext width data := by
  have getD_of_readAt : ∀ {index : Nat} {byte : UInt8}, readAt data index = .ok byte →
      data.getD index 0 = byte := fun read => by
    simp [List.getD_eq_getElem?_getD, readAt_sound read]
  obtain ⟨maxDepthBits, first, parsed⟩ := bind_eq_ok parsed
  obtain ⟨alphabetSize, second, parsed⟩ := bind_eq_ok parsed
  obtain ⟨writtenBits, counter, parsed⟩ := bind_eq_ok parsed
  obtain ⟨alphabet, letters, parsed⟩ := bind_eq_ok parsed
  obtain rfl := (Except.ok.inj parsed).symm
  obtain ⟨inside, rfl⟩ := readAlphabet_sound letters
  rw [← getD_of_readAt first, ← getD_of_readAt second] at *
  unfold readCounter at counter
  split at counter
  · cases counter
  · cases counter
    exact ⟨inside (Nat.succ_pos _), rfl⟩

/-! ### A round that returned read a code -/

/-- Bits ahead of a position, then more bits after them, are ahead of it together. -/
theorem append_prefix_drop {first second stream : List Bool} {start : Nat}
    (here : first <+: stream.drop start) (later : second <+: stream.drop (start + first.length)) :
    first ++ second <+: stream.drop start := by
  obtain ⟨rest, split⟩ := here
  have after : stream.drop (start + first.length) = rest := by
    rw [← List.drop_drop, ← split, List.drop_left]
  exact split ▸ (List.prefix_append_right_inj first).mpr (after ▸ later)

/-- `read_bit` that returned read the bit at the reader's position. -/
theorem readBit_sound {data : List UInt8} {r r' : Reader} {bit : Bool} (aligned : r.Aligned)
    (read : r.readBit data = .ok (bit, r')) :
    [bit] <+: (byteBits data).drop r.position ∧ r' = r.skip 1 := by
  rw [Reader.readBit_eq data aligned] at read
  split at read
  · rename_i here
    cases read
    obtain ⟨inside, rfl⟩ := List.getElem?_eq_some_iff.mp here
    exact ⟨by rw [List.drop_eq_getElem_cons inside]; exact List.prefix_append _ _, rfl⟩
  · cases read

/-- **A bit loop that returned** read `count` bits of the buffer and folded them in. -/
theorem readFold_sound {α : Type} {data : List UInt8} {bound : Nat} {fault : Nat → Fault}
    {update : Nat → α → Bool → α} {count index : Nat} {acc acc' : α} {r r' : Reader} (aligned : r.Aligned)
    (read : readFold data bound fault update count index acc r = .ok (acc', r')) :
    ∃ bits, bits.length = count ∧ bits <+: (byteBits data).drop r.position ∧
      acc' = bits.foldlIdx update acc index ∧ r' = r.skip count := by
  induction count generalizing index acc r with
  | zero =>
      cases read
      exact ⟨[], rfl, List.nil_prefix, rfl, (Reader.skip_zero aligned).symm⟩
  | succ count ih =>
      unfold readFold at read
      split at read
      · cases read
      rename_i bit next readOne
      obtain ⟨here, rfl⟩ := readBit_sound aligned readOne
      split_ifs at read
      obtain ⟨bits, length, later, rfl, rfl⟩ := ih (Reader.skip_aligned r 1) read
      refine ⟨bit :: bits, by simp [length], ?_, rfl, by rw [Reader.skip_skip, Nat.add_comm]⟩
      exact append_prefix_drop here (by rwa [Reader.position_skip] at later)

/-- A round of `decode` under `ctx` that reads `code` and appends `v`: `max_depth_bits` depth bits,
as many path bits as the depth field they set counts, and a path that `find_value` follows to a
node holding `v`. -/
def Context.Round (ctx : Context) (v : Int) (code : List Bool) : Prop :=
  ∃ depthBits pathBits, code = depthBits ++ pathBits ∧ depthBits.length = ctx.maxDepthBits ∧
    pathBits.length = depthBits.foldlIdx orBit 0 0 ∧ ∃ left right,
      findValueLoop (fun index => pathBits.getD index false) pathBits.length 0 ctx.tree.root =
        some (.node v left right)

theorem findValue_eq_some {tree : BinaryTree} {info : PathInfo} {v : Int} (found : tree.findValue info = some v) :
    ∃ left right, findValueLoop info.bitPath info.depth 0 tree.root = some (.node v left right) := by
  unfold BinaryTree.findValue at found
  split at found
  · cases found; exact ⟨_, _, ‹_›⟩
  · cases found

/-- **A round that returned read one code**: a `Round` of the context, from the bits ahead of the
reader, and appended its symbol. -/
theorem decodeStep_sound {data : List UInt8} {ctx : Context} {r r' : Reader} (aligned : r.Aligned)
    (stepped : decodeStep data ctx r = .ok r') :
    ∃ v code, ctx.Round v code ∧ code <+: (byteBits data).drop r.position ∧
      r' = { r.skip code.length with occurrences := r.occurrences ++ [v] } := by
  unfold decodeStep at stepped
  split at stepped
  · cases stepped
  rename_i depth next depthRead
  split at stepped
  · cases stepped
  rename_i info last pathRead
  split at stepped
  · rename_i v found
    cases stepped
    obtain ⟨depthBits, depthLength, depthAhead, rfl, rfl⟩ := readFold_sound aligned depthRead
    obtain ⟨pathBits, pathLength, pathAhead, rfl, rfl⟩ := readFold_sound (Reader.skip_aligned r _) pathRead
    have filled := foldlIdx_setBit [] pathBits (depthBits.foldlIdx orBit 0 0)
    simp only [List.getD_nil, List.nil_append, List.length_nil] at filled
    obtain ⟨left, right, reached⟩ := findValue_eq_some found
    rw [filled] at reached
    refine ⟨v, depthBits ++ pathBits, ⟨depthBits, pathBits, rfl, depthLength, pathLength, left, right,
      pathLength ▸ reached⟩, append_prefix_drop depthAhead ?_, ?_⟩
    · rwa [Reader.position_skip, ← depthLength] at pathAhead
    · rw [Reader.skip_skip, List.length_append, depthLength, pathLength]
      rfl
  · cases stepped

@[simp] theorem position_with (r : Reader) (occurrences : List Int) :
    ({ r with occurrences } : Reader).position = r.position := rfl

@[simp] theorem bitsRead_with (r : Reader) (occurrences : List Int) :
    ({ r with occurrences } : Reader).bitsRead = r.bitsRead := rfl

/-- **The loop that returned read a run of rounds**: from the reader's position the buffer's bits
begin with the rounds' codes, every round started below the counter, the loop stopped at or past
it, and the reader moved past the codes with the rounds' symbols appended. -/
theorem decodeLoop_sound {data : List UInt8} {ctx : Context} {fuel : Nat} {r r' : Reader}
    (aligned : r.Aligned) (looped : decodeLoop data ctx fuel r = .ok r') :
    ∃ rounds : List (Int × List Bool), (∀ round ∈ rounds, ctx.Round round.1 round.2) ∧
      (rounds.map Prod.snd).flatten <+: (byteBits data).drop r.position ∧
      (∀ index < rounds.length,
        r.bitsRead + ((rounds.take index).map Prod.snd).flatten.length < ctx.writtenBits) ∧
      ctx.writtenBits ≤ r.bitsRead + (rounds.map Prod.snd).flatten.length ∧
      r' = { r.skip (rounds.map Prod.snd).flatten.length with
        occurrences := r.occurrences ++ rounds.map Prod.fst } := by
  induction fuel generalizing r with
  | zero => cases looped
  | succ fuel ih =>
      unfold decodeLoop at looped
      split_ifs at looped with running
      · split at looped
        · cases looped
        rename_i next stepped
        obtain ⟨v, code, round, ahead, rfl⟩ := decodeStep_sound aligned stepped
        obtain ⟨rounds, each, later, started, stopped, rfl⟩ := ih (by exact Reader.skip_aligned r _) looped
        rw [position_with, Reader.position_skip] at later
        simp only [bitsRead_with, Reader.skip_bitsRead] at started stopped
        refine ⟨(v, code) :: rounds, List.forall_mem_cons.mpr ⟨round, each⟩, ?_, fun index inside => ?_, ?_, ?_⟩
        · simpa only [List.map_cons, List.flatten_cons] using append_prefix_drop ahead later
        · cases index with
          | zero => simpa using running
          | succ index =>
              have := started index (by simpa using inside)
              simp only [List.take_succ_cons, List.map_cons, List.flatten_cons, List.length_append]
              omega
        · simp only [List.map_cons, List.flatten_cons, List.length_append]
          omega
        · simp only [skip_with, Reader.skip_skip, Reader.skip_occurrences, List.map_cons, List.flatten_cons,
            List.length_append, List.append_assoc, List.singleton_append]
      · cases looped
        refine ⟨[], by simp, List.nil_prefix, by simp, by simpa using Nat.not_lt.mp running, ?_⟩
        simp [Reader.skip_zero aligned]

/-! ### What a returned `decode` read -/

/-- **A `decode` that returned parsed its header and read a run of rounds from the first byte after
the letters**, each round started below the counter and the last one ending at or past it. -/
theorem decode_sound {width : Nat} {data out : List UInt8} (decoded : decode width data = .ok out) :
    2 + ((data.getD 1 0).toNat + 1) ≤ data.length ∧
      ∃ rounds : List (Int × List Bool),
        (∀ round ∈ rounds, (declaredContext width data).Round round.1 round.2) ∧
        (rounds.map Prod.snd).flatten <+: (byteBits data).drop (8 * (2 + ((data.getD 1 0).toNat + 1))) ∧
        (∀ index < rounds.length, ((rounds.take index).map Prod.snd).flatten.length < declaredCounter data) ∧
        declaredCounter data ≤ (rounds.map Prod.snd).flatten.length ∧
        out = rounds.map fun round => UInt8.ofNat (round.1 % 256).toNat := by
  obtain ⟨ctx, parsed, decoded⟩ := bind_eq_ok decoded
  obtain ⟨inside, rfl⟩ := parseHeader_sound parsed
  obtain ⟨r, looped, decoded⟩ := bind_eq_ok decoded
  obtain ⟨rounds, each, ahead, started, stopped, rfl⟩ := decodeLoop_sound (by exact Nat.succ_pos 7) looped
  cases decoded
  refine ⟨inside, rounds, each, ahead, fun index below => ?_, ?_, by simp [declaredContext]⟩
  · simpa only [declaredContext, Nat.zero_add] using started index below
  · simpa only [declaredContext, Nat.zero_add] using stopped

theorem Context.Round.mem_values {ctx : Context} {v : Int} {code : List Bool} (round : ctx.Round v code) :
    v ∈ ctx.tree.root.values := by
  obtain ⟨_, _, _, _, _, _, _, reached⟩ := round
  exact mem_values_of_findValueLoop _ reached

theorem Context.Round.length_ge {ctx : Context} {v : Int} {code : List Bool} (round : ctx.Round v code) :
    ctx.maxDepthBits ≤ code.length := by
  obtain ⟨depthBits, pathBits, rfl, depthLength, -⟩ := round
  simp [depthLength]

/-- **Over a tree of distinct values a round read its symbol's code**: the path it followed is the
symbol's path, and its depth field is that path's length. -/
theorem Context.Round.pathTo {ctx : Context} {v : Int} {code : List Bool} (round : ctx.Round v code)
    (narrow : ctx.maxDepthBits ≤ 31) (distinct : ctx.tree.root.values.Nodup) :
    ∃ path, ctx.tree.root.pathTo v = some path ∧ code = lowBits ctx.maxDepthBits path.length ++ path := by
  obtain ⟨depthBits, pathBits, rfl, depthLength, pathLength, left, right, reached⟩ := round
  have value : depthBits.foldlIdx orBit 0 0 = bitsValue depthBits := by
    simpa using foldlIdx_orBit [] depthBits (by simpa [depthLength] using narrow)
  refine ⟨pathBits, pathTo_of_findValueLoop distinct _ pathBits (fun index _ => by rw [Nat.zero_add]) reached, ?_⟩
  rw [pathLength, value, ← depthLength, lowBits_bitsValue]

theorem ofNat_emod_toNat_byte (byte : UInt8) : UInt8.ofNat (((byte.toNat : Int) % 256).toNat) = byte :=
  List.singleton_inj.mp (decode_output [byte])

/-- The symbol of a round of `decode` is a declared letter, and the byte `decode` pushes for it is
that letter. -/
theorem round_letter {width : Nat} {data : List UInt8} (inside : 2 + ((data.getD 1 0).toNat + 1) ≤ data.length)
    {v : Int} {code : List Bool} (round : (declaredContext width data).Round v code) :
    ∃ letter ∈ declaredLetters data, v = letter.toNat ∧ UInt8.ofNat (v % 256).toNat = letter := by
  have nonempty : (declaredLetters data).map UInt8.toNat ≠ [] := by
    rw [← List.length_pos, List.length_map, declaredLetters_length inside]
    exact Nat.succ_pos _
  obtain ⟨n, listed, rfl⟩ := BinaryTree.exists_of_mem_build_values nonempty round.mem_values
  obtain ⟨letter, mem, rfl⟩ := List.mem_map.mp listed
  exact ⟨letter, mem, rfl, ofNat_emod_toNat_byte letter⟩

theorem letters_of_rounds {width : Nat} {data : List UInt8}
    (inside : 2 + ((data.getD 1 0).toNat + 1) ≤ data.length) {rounds : List (Int × List Bool)}
    (each : ∀ round ∈ rounds, (declaredContext width data).Round round.1 round.2) :
    ∀ byte ∈ rounds.map (fun round => UInt8.ofNat (round.1 % 256).toNat), byte ∈ declaredLetters data := by
  intro byte mem
  obtain ⟨round, isRound, rfl⟩ := List.mem_map.mp mem
  obtain ⟨letter, letterMem, -, byteEq⟩ := round_letter inside (each round isRound)
  exact byteEq ▸ letterMem

/-- **Every byte `decode` returns is a declared letter**, on every buffer and for every symbol
width: a round ends only on a node of the tree of those letters. -/
theorem decode_letters {width : Nat} {data out : List UInt8} (decoded : decode width data = .ok out) :
    ∀ byte ∈ out, byte ∈ declaredLetters data := by
  obtain ⟨inside, rounds, each, -, -, -, rfl⟩ := decode_sound decoded
  exact letters_of_rounds inside each

theorem decode_letters_example :
    decode 1 [1, 1, 0x41, 0x42, 0x02, 3, 0, 0, 0] = .ok [0x41, 0x42] ∧
      ∀ byte ∈ ([0x41, 0x42] : List UInt8), byte ∈ declaredLetters [1, 1, 0x41, 0x42, 0x02, 3, 0, 0, 0] :=
  ⟨by decide, decode_letters (show decode 1 _ = _ by decide)⟩

/-- Codes of at least `least` bits each make a stream of at least `least` bits per code. -/
theorem mul_le_length_flatten {codes : List (List Bool)} {least : Nat}
    (each : ∀ code ∈ codes, least ≤ code.length) : codes.length * least ≤ codes.flatten.length := by
  induction codes with
  | nil => simp
  | cons code codes ih =>
      have := each code (List.mem_cons_self _ _)
      have := ih fun other mem => each other (List.mem_cons_of_mem _ mem)
      simp only [List.length_cons, List.flatten_cons, List.length_append, Nat.succ_mul]
      omega

/-- **`decode` returns at most one byte per `D[0]` counted bits, plus one**: every round reads the
`D[0]` depth bits, and all but the last start below the counter. -/
theorem decode_length {width : Nat} {data out : List UInt8} (decoded : decode width data = .ok out) :
    out = [] ∨ (out.length - 1) * (data.getD 0 0).toNat < declaredCounter data := by
  obtain ⟨-, rounds, each, -, started, -, rfl⟩ := decode_sound decoded
  rcases Nat.eq_zero_or_pos rounds.length with empty | nonempty
  · exact Or.inl (List.map_eq_nil_iff.mpr (List.length_eq_zero.mp empty))
  · have reads : ∀ code ∈ (rounds.take (rounds.length - 1)).map Prod.snd,
        (data.getD 0 0).toNat ≤ code.length := fun code mem => by
      obtain ⟨round, isRound, rfl⟩ := List.mem_map.mp mem
      exact (each round (List.mem_of_mem_take isRound)).length_ge
    have before := mul_le_length_flatten reads
    rw [List.length_map, List.length_take, Nat.min_eq_left (Nat.sub_le _ _)] at before
    rw [List.length_map]
    exact Or.inr (lt_of_le_of_lt before (started (rounds.length - 1) (by omega)))

theorem decode_length_example :
    decode 1 [1, 1, 0x41, 0x42, 0x02, 3, 0, 0, 0] = .ok [0x41, 0x42] ∧
      (([0x41, 0x42] : List UInt8) = [] ∨
        (([0x41, 0x42] : List UInt8).length - 1) * (([1, 1, 0x41, 0x42, 0x02, 3, 0, 0, 0] : List UInt8).getD 0 0).toNat <
          declaredCounter [1, 1, 0x41, 0x42, 0x02, 3, 0, 0, 0]) :=
  ⟨by decide, decode_length (show decode 1 _ = _ by decide)⟩

/-- Over distinct declared letters, the codes the rounds read are the codes of the bytes `decode`
pushes for them. -/
theorem declaredCodes_rounds {width : Nat} {data : List UInt8}
    (inside : 2 + ((data.getD 1 0).toNat + 1) ≤ data.length) (narrow : (data.getD 0 0).toNat ≤ 31)
    (distinct : (declaredLetters data).Nodup)
    {rounds : List (Int × List Bool)}
    (each : ∀ round ∈ rounds, (declaredContext width data).Round round.1 round.2) :
    declaredCodes data (rounds.map fun round => UInt8.ofNat (round.1 % 256).toNat) =
      (rounds.map Prod.snd).flatten := by
  have treeDistinct : (declaredContext width data).tree.root.values.Nodup :=
    BinaryTree.nodup_build_values (List.Nodup.map (fun _ _ => UInt8.toNat.inj) distinct)
  induction rounds with
  | nil => rfl
  | cons round rounds ih =>
      obtain ⟨v, code⟩ := round
      have first := each (v, code) (List.mem_cons_self _ _)
      obtain ⟨letter, -, rfl, byteEq⟩ := round_letter inside first
      obtain ⟨path, found, rfl⟩ := first.pathTo narrow treeDistinct
      have rest := ih fun round mem => each round (List.mem_cons_of_mem _ mem)
      simp only [declaredCodes, List.map_cons, List.flatMap_cons, List.flatten_cons] at rest ⊢
      rw [byteEq, rest]
      exact congrArg (· ++ _) (symbolCode_of_pathTo found)

/-! ### The language of `decode` -/

/-- `out` is what the bits of `data` spell: each of its bytes is a declared letter, the bits after
the letters begin with their codes, each code starts below the counter, and together they reach
it. -/
def Spells (data out : List UInt8) : Prop :=
  (∀ byte ∈ out, byte ∈ declaredLetters data) ∧
    declaredCodes data out <+: (byteBits data).drop (8 * (2 + ((data.getD 1 0).toNat + 1))) ∧
    (∀ index < out.length, (declaredCodes data (out.take index)).length < declaredCounter data) ∧
    declaredCounter data ≤ (declaredCodes data out).length

instance decideSpells (data out : List UInt8) : Decidable (Spells data out) := by
  unfold Spells
  infer_instance

/-- **Over distinct declared letters, what `decode` returns is what the buffer spells.** -/
theorem spells_of_decode {width : Nat} {data out : List UInt8} (decoded : decode width data = .ok out)
    (narrow : (data.getD 0 0).toNat ≤ 31) (distinct : (declaredLetters data).Nodup) : Spells data out := by
  obtain ⟨inside, rounds, each, ahead, started, stopped, rfl⟩ := decode_sound decoded
  have codes := declaredCodes_rounds inside narrow distinct each
  refine ⟨letters_of_rounds inside each, codes ▸ ahead, fun index below => ?_, codes ▸ stopped⟩
  rw [← List.map_take,
    declaredCodes_rounds inside narrow distinct fun round mem => each round (List.mem_of_mem_take mem)]
  exact started index (by simpa using below)

/-- A code has the `max_depth_bits` depth bits and at most the tree's height in path bits. -/
theorem symbolCode_length_bounds (tree : BinaryTree) (maxDepthBits symbol : Nat) :
    maxDepthBits ≤ (symbolCode tree maxDepthBits symbol).length ∧
      (symbolCode tree maxDepthBits symbol).length ≤ maxDepthBits + tree.root.height := by
  cases found : tree.root.pathTo symbol with
  | none => simp [symbolCode, found]
  | some path =>
      have deep := Node.length_le_height_of_pathTo found
      rw [symbolCode_of_pathTo found, List.length_append, lowBits_length]
      omega

theorem declaredCodes_length (data bytes : List UInt8) :
    bytes.length * (data.getD 0 0).toNat ≤ (declaredCodes data bytes).length ∧
      (declaredCodes data bytes).length ≤ bytes.length *
        ((data.getD 0 0).toNat + (BinaryTree.build ((declaredLetters data).map UInt8.toNat)).root.height) := by
  have bounds := length_flatMap_bounds
    (symbolCode (BinaryTree.build ((declaredLetters data).map UInt8.toNat)) (data.getD 0 0).toNat) _ _
    (bytes.map UInt8.toNat) fun v _ => symbolCode_length_bounds _ _ v
  rw [List.length_map] at bounds
  exact bounds

/-- A buffer spells at most one byte per counted bit: with `D[0] ≥ 1` every code has a bit, and
with `D[0] = 0` and a one-node tree no code has one, so only the empty string is spelled. -/
theorem length_le_of_spells {width : Nat} {data out : List UInt8}
    (fits : (declaredContext width data).tree.root.height < 2 ^ (data.getD 0 0).toNat)
    (spells : Spells data out) : out.length ≤ declaredCounter data := by
  obtain ⟨-, -, started, reach⟩ := spells
  rcases out.eq_nil_or_concat with rfl | ⟨front, last, rfl⟩
  · exact Nat.zero_le _
  rw [List.concat_eq_append] at started reach ⊢
  have before := started front.length (by simp)
  rw [List.take_left' rfl] at before
  rcases Nat.eq_zero_or_pos (data.getD 0 0).toNat with silent | reads
  · have flat : (BinaryTree.build ((declaredLetters data).map UInt8.toNat)).root.height = 0 := by
      rw [silent] at fits
      exact Nat.lt_one_iff.mp fits
    have empty := (declaredCodes_length data (front ++ [last])).2
    simp only [silent, flat] at empty
    omega
  · have lower := (declaredCodes_length data front).1
    have := Nat.le_mul_of_pos_right front.length reads
    simp only [List.length_append, List.length_singleton]
    omega

/-- **`decode` reads every string a buffer spells**, on a buffer that holds its header and counter,
with at most 31 depth bits, and a tree whose depths fit in `D[0]` bits and whose paths fit in
`bit_path`. -/
theorem decode_of_spells {width : Nat} {data out : List UInt8}
    (long : (data.getD 1 0).toNat + 7 ≤ data.length) (narrow : (data.getD 0 0).toNat ≤ 31)
    (fits : (declaredContext width data).tree.root.height < 2 ^ (data.getD 0 0).toNat)
    (room : (declaredContext width data).tree.root.height ≤ bitPathSize width)
    (spells : Spells data out) : decode width data = .ok out := by
  have enough := length_le_of_spells fits spells
  obtain ⟨letters, ahead, started, reach⟩ := spells
  have readable : ∀ v ∈ out.map UInt8.toNat, (declaredContext width data).Readable v := by
    intro v mem
    obtain ⟨byte, isOut, rfl⟩ := List.mem_map.mp mem
    have present := (BinaryTree.mem_build_values _ byte.toNat).mpr (List.mem_map_of_mem _ (letters byte isOut))
    cases found : (declaredContext width data).tree.root.pathTo byte.toNat with
    | none => exact absurd present ((Node.pathTo_eq_none_iff _ _).mp found)
    | some path =>
        have deep := Node.length_le_height_of_pathTo found
        exact ⟨path, found, lt_of_le_of_lt deep fits, deep.trans room⟩
  obtain ⟨taken, rest, split, stopped, loop⟩ := decodeLoop_codes narrow _ readable
    (show (declaredContext width data).start.Aligned from Nat.succ_pos 7) ahead
    (by simp only [declaredContext, Nat.zero_add]; exact reach)
    ((declaredContext width data).writtenBits + 1) (by simpa using Nat.lt_succ_of_le enough)
  have whole : rest = [] := by
    rcases rest with _ | ⟨v, rest⟩
    · rfl
    have shorter : taken.length < out.length := by
      have lengths := congrArg List.length split
      simp only [List.length_map, List.length_append, List.length_cons] at lengths
      omega
    have before := started taken.length shorter
    rw [declaredCodes, List.map_take, split, List.take_left] at before
    simp only [declaredContext, Nat.zero_add] at stopped
    exact absurd stopped (Nat.not_le.mpr before)
  subst whole
  rw [List.append_nil] at split
  have parsed : parseHeader width data = .ok (declaredContext width data) := parseHeader_eq width data long
  rw [decode, parsed, ok_bind, loop, ok_bind, ← split]
  exact congrArg Except.ok (decode_output out)

/-- **The language `decode` accepts**: on a buffer that holds its header and counter, declares
distinct letters, at most 31 depth bits, and a tree whose depths fit in `D[0]` bits and whose paths
fit in `bit_path`, `decode` returns exactly the strings the buffer spells, and fails where it
spells none. -/
theorem decode_eq_ok_iff {width : Nat} {data out : List UInt8}
    (long : (data.getD 1 0).toNat + 7 ≤ data.length) (distinct : (declaredLetters data).Nodup)
    (narrow : (data.getD 0 0).toNat ≤ 31)
    (fits : (declaredContext width data).tree.root.height < 2 ^ (data.getD 0 0).toNat)
    (room : (declaredContext width data).tree.root.height ≤ bitPathSize width) :
    decode width data = .ok out ↔ Spells data out :=
  ⟨fun decoded => spells_of_decode decoded narrow distinct, decode_of_spells long narrow fits room⟩

theorem decode_eq_ok_iff_example :
    (([1, 1, 0x41, 0x42, 0x02, 3, 0, 0, 0] : List UInt8).getD 1 0).toNat + 7 ≤ 9 ∧
      (declaredLetters [1, 1, 0x41, 0x42, 0x02, 3, 0, 0, 0]).Nodup ∧
      (([1, 1, 0x41, 0x42, 0x02, 3, 0, 0, 0] : List UInt8).getD 0 0).toNat ≤ 31 ∧
      (declaredContext 1 [1, 1, 0x41, 0x42, 0x02, 3, 0, 0, 0]).tree.root.height <
        2 ^ (([1, 1, 0x41, 0x42, 0x02, 3, 0, 0, 0] : List UInt8).getD 0 0).toNat ∧
      (declaredContext 1 [1, 1, 0x41, 0x42, 0x02, 3, 0, 0, 0]).tree.root.height ≤ bitPathSize 1 ∧
      (decode 1 [1, 1, 0x41, 0x42, 0x02, 3, 0, 0, 0] = .ok [0x41, 0x42] ↔
        Spells [1, 1, 0x41, 0x42, 0x02, 3, 0, 0, 0] [0x41, 0x42]) :=
  ⟨by decide, by decide, by decide, by decide, by decide,
    decode_eq_ok_iff (by decide) (by decide) (by decide) (by decide) (by decide)⟩

end XLib.XKC
