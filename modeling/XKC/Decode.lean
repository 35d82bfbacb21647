/-
**`XKC::decode`: the reader, the loop and its faults.**

`decode` reads `max_depth_bits`, the alphabet size and the trailing `uint32_t` counter, rebuilds the
tree from the alphabet, and then runs `while (bits_read < written_bits)`: each round reads the depth
field and the path bits with `read_bit` and appends the symbol `find_value` reaches. The source
checks nothing, so the model stops with a `Fault` where the C++ program reads outside the buffer,
dereferences a null node, or performs an operation the standard leaves undefined (an `int` shift by
32 or more, and a `bit_path` index past the bitset). Both inner loops are `readFold`: `read_bit`
once per index, with a bound on the index. The `while` loop runs with fuel `written_bits + 1`.

* `readBit_eq`: `read_bit` returns bit `8 * read_bytes + read_bits_on_result_byte` of the buffer's bit
  sequence and advances that position by one.
* `bitsRead_decodeStep`: a round that completes advances `bits_read` by `max_depth_bits` plus the
  depth it read.
* `decodeLoop_ends`: with `max_depth_bits ≥ 1` the loop ends, with a result or a fault, within
  `written_bits + 1` rounds of fuel, and more fuel changes nothing.
* `decodeLoop_diverges`: with `max_depth_bits = 0` and a positive counter no round reads a bit, and
  the loop never ends.
* `decode_loopBound`: on every buffer that holds its header, alphabet and counter, the loop ends
  after at most `written_bits` rounds when `D[0] ≥ 1`; `decode_zero_width_diverges`: a buffer with
  `D[0] = 0` on which it never ends.
-/

import XKC.Path

namespace XLib.XKC

/-- `data[index]`, a fault outside the buffer. -/
def readAt (data : List UInt8) (index : Nat) : Except Fault UInt8 :=
  match data[index]? with
  | some byte => .ok byte
  | none => .error (.readOutOfBounds index)

/-- The locals of `decode` that `read_bit` and the loop change. -/
structure Reader where
  readBytes : Nat
  readBitsOnResultByte : Nat
  bitsRead : Nat
  occurrences : List Int
  deriving Repr, DecidableEq

namespace Reader

/-- The bit `read_bit` reads next: bit `read_bits_on_result_byte` of byte `read_bytes`. -/
def position (r : Reader) : Nat := 8 * r.readBytes + r.readBitsOnResultByte

/-- `read_bit()`: `data[read_bytes] & (1 << read_bits_on_result_byte)`; then both counters advance,
and after the eighth bit of a byte `read_bytes` moves on. -/
def readBit (data : List UInt8) (r : Reader) : Except Fault (Bool × Reader) :=
  match readAt data r.readBytes with
  | .error fault => .error fault
  | .ok byte =>
      .ok (byte.toNat.testBit r.readBitsOnResultByte,
        if r.readBitsOnResultByte + 1 = 8 then
          { r with readBytes := r.readBytes + 1, readBitsOnResultByte := 0, bitsRead := r.bitsRead + 1 }
        else { r with readBitsOnResultByte := r.readBitsOnResultByte + 1, bitsRead := r.bitsRead + 1 })

end Reader

/-- The shape of both inner loops of `decode`: `count` calls of `read_bit()` for the indices
`index, index + 1, ...`, each bit folded into the accumulator by `update` at its index, where an
index at or past `bound` is the undefined operation `fault index`. -/
def readFold {α : Type} (data : List UInt8) (bound : Nat) (fault : Nat → Fault)
    (update : Nat → α → Bool → α) : Nat → Nat → α → Reader → Except Fault (α × Reader)
  | 0, _, acc, r => .ok (acc, r)
  | count + 1, index, acc, r =>
      match r.readBit data with
      | .error f => .error f
      | .ok (bit, r) =>
          if bound ≤ index then .error (fault index)
          else readFold data bound fault update count (index + 1) (update index acc bit) r

/-- `bit << depth_bit` for the `int` that `read_bit` returns, as the `size_t` it is or-ed into: a set
bit shifted to 31 is `INT_MIN`, which converts to `2 ^ 64 - 2 ^ 31`. -/
def shiftedBit (bit : Bool) (depthBit : Nat) : Nat :=
  if bit then (if depthBit = 31 then 2 ^ 64 - 2 ^ 31 else 2 ^ depthBit) else 0

/-- `path_info.depth |= (bit << depth_bit)`. -/
def orBit (depthBit depth : Nat) (bit : Bool) : Nat := depth ||| shiftedBit bit depthBit

/-- The depth loop: `for (depth_bit < max_depth_bits) path_info.depth |= (read_bit() << depth_bit)`,
with `remaining` rounds left; a shift of the `int` by 32 or more is undefined. -/
def readDepth (data : List UInt8) (remaining depthBit depth : Nat) (r : Reader) : Except Fault (Nat × Reader) :=
  readFold data 32 .shiftOutOfRange orBit remaining depthBit depth r

/-- The path loop: `for (depth < path_info.depth) path_info.bit_path[depth] = read_bit()`, with
`remaining` rounds left and `bitPathSize` bits in `bit_path_t`. -/
def readPath (data : List UInt8) (bitPathSize remaining depth : Nat) (info : PathInfo) (r : Reader) :
    Except Fault (PathInfo × Reader) :=
  readFold data bitPathSize .bitPathOutOfRange (fun depth info bit => info.setBit depth bit) remaining depth info r

/-- What `decode` knows once it has read the header and the counter. -/
structure Context where
  maxDepthBits : Nat
  bitPathSize : Nat
  writtenBits : Nat
  tree : BinaryTree
  start : Reader
  deriving DecidableEq

/-- One round of the `while` loop: a fresh `PathInfoResult`, its depth, its path, and the symbol
`find_value` reaches, pushed as an occurrence. -/
def decodeStep (data : List UInt8) (ctx : Context) (r : Reader) : Except Fault Reader :=
  match readDepth data ctx.maxDepthBits 0 0 r with
  | .error fault => .error fault
  | .ok (depth, r) =>
      match readPath data ctx.bitPathSize depth 0 ⟨fun _ => false, depth⟩ r with
      | .error fault => .error fault
      | .ok (info, r) =>
          match ctx.tree.findValue info with
          | some value => .ok { r with occurrences := r.occurrences ++ [value] }
          | none => .error .nullNode

/-- `while (bits_read < written_bits)`, with `fuel` rounds. -/
def decodeLoop (data : List UInt8) (ctx : Context) : Nat → Reader → Except Fault Reader
  | 0, _ => .error .outOfFuel
  | fuel + 1, r =>
      if r.bitsRead < ctx.writtenBits then
        match decodeStep data ctx r with
        | .error fault => .error fault
        | .ok r => decodeLoop data ctx fuel r
      else .ok r

/-- The trailing counter, `*view_as<uint32_t*>(data + size - sizeof(uint32_t))`: before the buffer
when it is shorter than four bytes. -/
def readCounter (data : List UInt8) : Except Fault Nat :=
  if data.length < 4 then .error (.readOutOfBounds (data.length - 4 : Int))
  else .ok (readLe (data.drop (data.length - 4)))

/-- `count` calls of `read_byte()` from byte `index` on, as the alphabet loop makes them. -/
def readAlphabet (data : List UInt8) : Nat → Nat → Except Fault (List UInt8)
  | 0, _ => .ok []
  | count + 1, index =>
      match readAt data index with
      | .error fault => .error fault
      | .ok byte =>
          match readAlphabet data count (index + 1) with
          | .error fault => .error fault
          | .ok rest => .ok (byte :: rest)

/-- Everything `decode` does before its loop: the two header bytes, the counter, the alphabet and
the tree. -/
def parseHeader (width : Nat) (data : List UInt8) : Except Fault Context := do
  let maxDepthBits ← readAt data 0
  let alphabetSize ← readAt data 1
  let writtenBits ← readCounter data
  let alphabet ← readAlphabet data (alphabetSize.toNat + 1) 2
  pure ⟨maxDepthBits.toNat, bitPathSize width, writtenBits,
    BinaryTree.build (alphabet.map UInt8.toNat), ⟨2 + (alphabetSize.toNat + 1), 0, 0, []⟩⟩

/-- `XKC<alphabet_T>::decode(data, size)` for `sizeof(alphabet_T) = width`: the loop runs with fuel
`written_bits + 1`, and each occurrence's `letter_value` is pushed as one `byte_t`. -/
def decode (width : Nat) (data : List UInt8) : Except Fault (List UInt8) := do
  let ctx ← parseHeader width data
  let r ← decodeLoop data ctx (ctx.writtenBits + 1) ctx.start
  pure (r.occurrences.map fun value => UInt8.ofNat (value % 256).toNat)

example : decode 1 [1, 1, 0x41, 0x42, 0x02, 3, 0, 0, 0] = .ok [0x41, 0x42] := by decide

/-! ### `read_bit` on the bit sequence of the buffer -/

namespace Reader

/-- The reader `count` bits further on, with as many more bits read. -/
def skip (r : Reader) (count : Nat) : Reader :=
  ⟨(r.position + count) / 8, (r.position + count) % 8, r.bitsRead + count, r.occurrences⟩

/-- A reader whose bit cursor is inside its byte, as every reader of `decode` is. -/
def Aligned (r : Reader) : Prop := r.readBitsOnResultByte < 8

@[simp] theorem skip_bitsRead (r : Reader) (count : Nat) : (r.skip count).bitsRead = r.bitsRead + count := rfl

@[simp] theorem skip_occurrences (r : Reader) (count : Nat) :
    (r.skip count).occurrences = r.occurrences := rfl

theorem skip_aligned (r : Reader) (count : Nat) : (r.skip count).Aligned := Nat.mod_lt _ (by decide)

theorem position_skip (r : Reader) (count : Nat) : (r.skip count).position = r.position + count := by
  simp only [skip, position]
  omega

theorem skip_skip (r : Reader) (first second : Nat) : (r.skip first).skip second = r.skip (first + second) := by
  have moved := position_skip r first
  unfold skip at moved ⊢
  rw [moved]
  simp only [Nat.add_assoc]

theorem skip_zero {r : Reader} (aligned : r.Aligned) : r.skip 0 = r := by
  simp only [skip, position, Aligned] at aligned ⊢
  congr 1 <;> omega

/-- **`read_bit` reads bit `8 * read_bytes + read_bits_on_result_byte` of the buffer's bit sequence
and moves one bit on**, or reads past the buffer. -/
theorem readBit_eq (data : List UInt8) {r : Reader} (aligned : r.Aligned) :
    r.readBit data =
      match (byteBits data)[r.position]? with
      | some bit => .ok (bit, r.skip 1)
      | none => .error (.readOutOfBounds r.readBytes) := by
  unfold readBit readAt
  cases inside : data[r.readBytes]? with
  | none =>
      have outside : data.length ≤ r.readBytes := List.getElem?_eq_none_iff.mp inside
      rw [List.getElem?_eq_none (by simp [position]; omega)]
  | some byte =>
      obtain ⟨within, rfl⟩ := List.getElem?_eq_some_iff.mp inside
      rw [position, byteBits_getElem? data _ _ within aligned]
      simp only [Except.ok.injEq, Prod.mk.injEq, true_and, skip, position]
      split_ifs with full <;> (simp only [Aligned] at aligned; congr 1 <;> omega)

end Reader

/-! ### What a round reads -/

/-- A `read_bit` that succeeds moves the reader one bit on. -/
theorem readBit_ok {data : List UInt8} {r r' : Reader} {bit : Bool} (aligned : r.Aligned)
    (done : r.readBit data = .ok (bit, r')) : r' = r.skip 1 := by
  rw [Reader.readBit_eq data aligned] at done
  split at done
  · cases done; rfl
  · cases done

/-- A bit loop that succeeds has read one bit per round. -/
theorem readFold_ok {α : Type} {data : List UInt8} {bound : Nat} {fault : Nat → Fault}
    {update : Nat → α → Bool → α} {count index : Nat} {acc acc' : α} {r r' : Reader} (aligned : r.Aligned)
    (done : readFold data bound fault update count index acc r = .ok (acc', r')) : r' = r.skip count := by
  induction count generalizing index acc r with
  | zero => cases done; exact (Reader.skip_zero aligned).symm
  | succ count ih =>
      simp only [readFold] at done
      split at done
      · cases done
      · rename_i bit next read
        rw [readBit_ok aligned read] at done
        split at done
        · cases done
        · rw [ih (Reader.skip_aligned r 1) done, Reader.skip_skip, Nat.add_comm]

/-- **A round that completes reads `max_depth_bits` plus the depth it read**, and appends one
symbol. -/
theorem decodeStep_ok {data : List UInt8} {ctx : Context} {r r' : Reader} (aligned : r.Aligned)
    (done : decodeStep data ctx r = .ok r') :
    ∃ depth value, r' = { r.skip (ctx.maxDepthBits + depth) with
      occurrences := r.occurrences ++ [value] } := by
  unfold decodeStep at done
  split at done
  · cases done
  · rename_i depth next depthRead
    have first := readFold_ok aligned depthRead
    subst first
    split at done
    · cases done
    · rename_i info next pathRead
      have second := readFold_ok (Reader.skip_aligned r _) pathRead
      subst second
      split at done
      · rename_i value found
        cases done
        exact ⟨depth, value, by rw [Reader.skip_skip]; rfl⟩
      · cases done

theorem bitsRead_decodeStep {data : List UInt8} {ctx : Context} {r r' : Reader} (aligned : r.Aligned)
    (done : decodeStep data ctx r = .ok r') : r.bitsRead + ctx.maxDepthBits ≤ r'.bitsRead ∧ r'.Aligned := by
  obtain ⟨depth, value, rfl⟩ := decodeStep_ok aligned done
  exact ⟨by simp, Reader.skip_aligned _ _⟩

theorem readBit_ne_outOfFuel (data : List UInt8) (r : Reader) :
    r.readBit data ≠ .error .outOfFuel := by
  unfold Reader.readBit readAt
  cases data[r.readBytes]? <;> simp

/-- A bit loop has no fuel of its own: it never stops for lack of it. -/
theorem readFold_ne_outOfFuel {α : Type} (data : List UInt8) (bound : Nat) {fault : Nat → Fault}
    (never : ∀ index, fault index ≠ .outOfFuel) (update : Nat → α → Bool → α) (count index : Nat) (acc : α)
    (r : Reader) : readFold data bound fault update count index acc r ≠ .error .outOfFuel := by
  induction count generalizing index acc r with
  | zero => simp [readFold]
  | succ count ih =>
      simp only [readFold]
      split
      · rename_i fault failed
        intro same
        cases same
        exact readBit_ne_outOfFuel data r failed
      · split
        · exact fun same => never index (Except.error.inj same)
        · exact ih _ _ _

/-- A round has no fuel of its own: it never stops for lack of it. -/
theorem decodeStep_ne_outOfFuel (data : List UInt8) (ctx : Context) (r : Reader) :
    decodeStep data ctx r ≠ .error .outOfFuel := by
  unfold decodeStep
  split
  · rename_i fault failed
    intro same
    cases same
    exact readFold_ne_outOfFuel data _ (fun _ => Fault.noConfusion) _ _ _ _ r failed
  · split
    · rename_i fault failed
      intro same
      cases same
      exact readFold_ne_outOfFuel data _ (fun _ => Fault.noConfusion) _ _ _ _ _ failed
    · split <;> simp

/-- **With `max_depth_bits ≥ 1` the loop ends within `written_bits + 1` rounds of fuel**, with its
result or a fault, and more fuel gives the same. -/
theorem decodeLoop_ends {data : List UInt8} {ctx : Context} (reads : 0 < ctx.maxDepthBits)
    (fuel : Nat) {r : Reader} (aligned : r.Aligned) (enough : ctx.writtenBits - r.bitsRead < fuel) :
    decodeLoop data ctx fuel r ≠ .error .outOfFuel ∧
      ∀ more, decodeLoop data ctx (fuel + more) r = decodeLoop data ctx fuel r := by
  induction fuel generalizing r with
  | zero => omega
  | succ fuel ih =>
      by_cases running : r.bitsRead < ctx.writtenBits
      · have next : ∀ r', decodeStep data ctx r = .ok r' →
            decodeLoop data ctx fuel r' ≠ .error .outOfFuel ∧
              ∀ more, decodeLoop data ctx (fuel + more) r' = decodeLoop data ctx fuel r' :=
          fun r' stepped => by
            have progress := bitsRead_decodeStep aligned stepped
            exact ih progress.2 (by omega)
        refine ⟨?_, fun more => ?_⟩
        · simp only [decodeLoop, running, if_true]
          cases stepped : decodeStep data ctx r with
          | error fault => exact fun same => decodeStep_ne_outOfFuel data ctx r (stepped.trans same)
          | ok r' => exact (next r' stepped).1
        · rw [Nat.add_right_comm]
          simp only [decodeLoop, running, if_true]
          cases stepped : decodeStep data ctx r with
          | error fault => rfl
          | ok r' => exact (next r' stepped).2 more
      · refine ⟨by simp [decodeLoop, running], fun more => ?_⟩
        rw [Nat.add_right_comm]
        simp [decodeLoop, running]

/-- Every round the loop completes appends one symbol and uses one unit of fuel, and the last unit
tests the loop's condition: a loop that returns from `fuel` appended fewer than `fuel` symbols. -/
theorem decodeLoop_occurrences {data : List UInt8} {ctx : Context} {fuel : Nat} {r r' : Reader}
    (aligned : r.Aligned) (looped : decodeLoop data ctx fuel r = .ok r') :
    r'.occurrences.length + 1 ≤ r.occurrences.length + fuel := by
  induction fuel generalizing r with
  | zero => cases looped
  | succ fuel ih =>
      simp only [decodeLoop] at looped
      split_ifs at looped
      · split at looped
        · cases looped
        · rename_i next stepped
          have more := ih (bitsRead_decodeStep aligned stepped).2 looped
          obtain ⟨depth, value, rfl⟩ := decodeStep_ok aligned stepped
          simp only [List.length_append, List.length_singleton] at more
          omega
      · cases looped
        omega

/-- **With `max_depth_bits = 0` and a positive counter no round reads a bit, and the loop never
ends.** -/
theorem decodeLoop_diverges {data : List UInt8} {ctx : Context} (silent : ctx.maxDepthBits = 0)
    (live : ctx.tree.root ≠ .null) (fuel : Nat) {r : Reader} (running : r.bitsRead < ctx.writtenBits) :
    decodeLoop data ctx fuel r = .error .outOfFuel := by
  induction fuel generalizing r with
  | zero => rfl
  | succ fuel ih =>
      obtain ⟨v, left, right, root⟩ : ∃ v left right, ctx.tree.root = .node v left right := by
        cases h : ctx.tree.root with
        | null => exact absurd h live
        | node v left right => exact ⟨v, left, right, rfl⟩
      have stepped : decodeStep data ctx r = .ok { r with occurrences := r.occurrences ++ [v] } := by
        simp [decodeStep, silent, readDepth, readPath, readFold, BinaryTree.findValue, findValueLoop, root]
      simp only [decodeLoop, running, if_true, stepped]
      exact ih running

/-! ### The loop on any buffer -/

theorem readAt_eq {data : List UInt8} {index : Nat} (inside : index < data.length) :
    readAt data index = .ok data[index] := by
  simp [readAt, List.getElem?_eq_getElem inside]

theorem readAlphabet_eq (data : List UInt8) (count index : Nat) (inside : index + count ≤ data.length) :
    readAlphabet data count index = .ok ((data.drop index).take count) := by
  induction count generalizing index with
  | zero => rfl
  | succ count ih =>
      simp only [readAlphabet, readAt_eq (show index < data.length by omega), ih (index + 1) (by omega)]
      conv_rhs => rw [List.drop_eq_getElem_cons (show index < data.length by omega)]
      rfl

theorem build_root_ne_null (values : List Nat) : (BinaryTree.build values).root ≠ .null := by
  cases values with
  | nil => simp [BinaryTree.build_nil, BinaryTree.fresh]
  | cons value rest => exact (BinaryTree.build_cons_root value rest).1

/-- A buffer long enough for its two header bytes, its declared alphabet and its counter passes
the header. -/
theorem parseHeader_eq (width : Nat) (data : List UInt8) (long : (data.getD 1 0).toNat + 7 ≤ data.length) :
    parseHeader width data = .ok ⟨(data.getD 0 0).toNat, bitPathSize width,
      readLe (data.drop (data.length - 4)),
      BinaryTree.build (((data.drop 2).take ((data.getD 1 0).toNat + 1)).map UInt8.toNat),
      ⟨2 + ((data.getD 1 0).toNat + 1), 0, 0, []⟩⟩ := by
  have first : 0 < data.length := by omega
  have second : 1 < data.length := by omega
  rw [List.getD_eq_getElem data 0 second] at long ⊢
  rw [List.getD_eq_getElem data 0 first]
  simp only [parseHeader, readAt_eq first, readAt_eq second, readCounter,
    if_neg (show ¬data.length < 4 by omega), ok_bind, readAlphabet_eq data (data[1].toNat + 1) 2 (by omega)]
  rfl

/-- What the `while` loop of `decode` does on a buffer whose header has been read: with
`max_depth_bits ≥ 1` every round that completes moves `bits_read` on, and the loop ends, with a
result or a fault, within `written_bits + 1` tests of its condition, after at most `written_bits`
rounds; with `max_depth_bits = 0` and a positive counter it never ends. -/
def LoopBound (data : List UInt8) (ctx : Context) : Prop :=
  (0 < ctx.maxDepthBits →
      (∀ r r', r.Aligned → decodeStep data ctx r = .ok r' → r.bitsRead < r'.bitsRead) ∧
      decodeLoop data ctx (ctx.writtenBits + 1) ctx.start ≠ .error .outOfFuel ∧
      (∀ r', decodeLoop data ctx (ctx.writtenBits + 1) ctx.start = .ok r' →
        r'.occurrences.length ≤ ctx.start.occurrences.length + ctx.writtenBits) ∧
      ∀ more, decodeLoop data ctx (ctx.writtenBits + 1 + more) ctx.start =
        decodeLoop data ctx (ctx.writtenBits + 1) ctx.start) ∧
    (ctx.maxDepthBits = 0 → 0 < ctx.writtenBits →
      ∀ fuel, decodeLoop data ctx fuel ctx.start = .error .outOfFuel)

/-- **The loop of `decode` on any buffer that holds its header, alphabet and counter**: it ends
after at most `written_bits` rounds when `max_depth_bits = D[0]` is positive, and never when
`D[0] = 0` and the counter is positive. -/
theorem decode_loopBound (data : List UInt8) (long : (data.getD 1 0).toNat + 7 ≤ data.length) :
    ∃ ctx, parseHeader 1 data = .ok ctx ∧ ctx.maxDepthBits = (data.getD 0 0).toNat ∧
      LoopBound data ctx := by
  have start : Reader.Aligned ⟨2 + ((data.getD 1 0).toNat + 1), 0, 0, []⟩ := by
    simp [Reader.Aligned]
  refine ⟨_, parseHeader_eq 1 data long, rfl, fun reads => ⟨fun r r' aligned stepped => ?_,
    (decodeLoop_ends reads _ start (Nat.lt_succ_of_le (Nat.sub_le _ _))).1,
    fun r' looped => by simpa using decodeLoop_occurrences start looped,
    (decodeLoop_ends reads _ start (Nat.lt_succ_of_le (Nat.sub_le _ _))).2⟩,
    fun silent running fuel => decodeLoop_diverges silent (build_root_ne_null _) fuel running⟩
  have := (bitsRead_decodeStep aligned stepped).1
  omega

theorem decode_loopBound_example :
    (([1, 1, 0x41, 0x42, 0x02, 3, 0, 0, 0] : List UInt8).getD 1 0).toNat + 7 ≤ 9 ∧
      ∃ ctx, parseHeader 1 [1, 1, 0x41, 0x42, 0x02, 3, 0, 0, 0] = .ok ctx ∧
        ctx.maxDepthBits = (([1, 1, 0x41, 0x42, 0x02, 3, 0, 0, 0] : List UInt8).getD 0 0).toNat ∧
        LoopBound [1, 1, 0x41, 0x42, 0x02, 3, 0, 0, 0] ctx :=
  ⟨by decide, decode_loopBound _ (by decide)⟩

/-- **A zero-width depth field never ends the loop**: in `[0, 0, 0x41, 1, 0, 0, 0]` the header
declares `max_depth_bits = 0`, one letter and a counter of one bit. The round reads no bit, so
`bits_read` stays at 0, and no fuel ends the loop. -/
theorem decode_zero_width_diverges :
    ∃ ctx, parseHeader 1 [0, 0, 0x41, 1, 0, 0, 0] = .ok ctx ∧
      decodeStep [0, 0, 0x41, 1, 0, 0, 0] ctx ctx.start = .ok { ctx.start with occurrences := [0x41] } ∧
      ∀ fuel, decodeLoop [0, 0, 0x41, 1, 0, 0, 0] ctx fuel ctx.start = .error .outOfFuel :=
  ⟨_, parseHeader_eq 1 _ (by decide), by decide,
    fun fuel => decodeLoop_diverges rfl (build_root_ne_null _) fuel (by decide)⟩

end XLib.XKC
