/-
**The bit stream between `encode` and `decode`.**

`encode` feeds its codes to `write_bit` and `check_bit` and flushes the last partial byte; `decode`
reads them back with `read_bit`, bit `read_bits_on_result_byte` of byte `read_bytes`. Both count
bits least significant first within a byte, so the writer's bytes are `packBits` of what it was fed
and the reader walks the bit sequence of the buffer (`byteBits`).

* `testBit_packBits`: bit `o` of packed byte `i` is bit `8 i + o` of the stream, or a zero pad bit.
* `prefix_byteBits_packBits`: the packed bits are a prefix of the bit sequence of their bytes.
* `readBits_ahead`: `n` calls of `read_bit` where the buffer holds `n` known bits return them;
  `readFold_ahead`: the bit loops of `decode` fold them in.
* `emitBits_readBits`: bits fed to the writer from a byte boundary fill `⌈n / 8⌉` bytes, and
  `read_bit` started at the first of them returns the bits in order.
-/

import XKC.Writer
import XKC.Decode

namespace XLib.XKC

/-! ### Packed bits -/

/-- Bit `offset` of packed byte `index` is bit `8 index + offset` of the stream, and a pad bit past
its end is zero. -/
theorem testBit_packBits (bits : List Bool) (index : Nat) (inside : index < (packBits bits).length)
    (offset : Nat) (small : offset < 8) :
    ((packBits bits)[index]).toNat.testBit offset = bits.getD (8 * index + offset) false := by
  have byte : bitsValue ((bits.drop (8 * index)).take 8) < 256 :=
    (bitsValue_lt _).trans_le (Nat.pow_le_pow_right (by norm_num) (by simp) : _ ≤ 2 ^ 8)
  simp only [packBits, List.getElem_map, List.getElem_range, toNat_ofNat_byte, Nat.mod_eq_of_lt byte,
    testBit_bitsValue, List.getD_eq_getElem?_getD, List.getElem?_take, small, if_true, List.getElem?_drop]

/-- **The packed bits are a prefix of the bit sequence of their bytes.** -/
theorem prefix_byteBits_packBits (bits : List Bool) : bits <+: byteBits (packBits bits) := by
  rw [List.prefix_iff_eq_take]
  refine List.ext_getElem (by rw [List.length_take, byteBits_length, packBits_length]; omega)
    fun index inside _ => ?_
  have bound : index / 8 < (packBits bits).length := by rw [packBits_length]; omega
  have read := byteBits_getElem? (packBits bits) (index / 8) (index % 8) bound (Nat.mod_lt _ (by decide))
  rw [Nat.div_add_mod, testBit_packBits bits _ bound _ (Nat.mod_lt _ (by decide)), Nat.div_add_mod] at read
  rw [List.getElem_take, ← List.getD_eq_getElem bits false inside]
  exact (Option.some.inj ((List.getElem?_eq_getElem _).symm.trans read)).symm

/-! ### Reading bits the stream is known to hold -/

/-- Bits ahead of a prefix, after it. -/
theorem prefix_drop_append {first second stream : List Bool} {start : Nat}
    (ahead : first ++ second <+: stream.drop start) : second <+: stream.drop (start + first.length) := by
  obtain ⟨rest, split⟩ := ahead
  refine ⟨rest, ?_⟩
  rw [← List.drop_drop, ← split]
  simp

/-- `read_bit` where the stream is known to hold `bit`. -/
theorem readBit_ahead {data : List UInt8} {r : Reader} (aligned : r.Aligned) {bit : Bool}
    {bits : List Bool} (ahead : bit :: bits <+: (byteBits data).drop r.position) :
    r.readBit data = .ok (bit, r.skip 1) ∧ bits <+: (byteBits data).drop (r.skip 1).position := by
  have here : (byteBits data)[r.position]? = some bit := by
    obtain ⟨rest, split⟩ := ahead
    have : (byteBits data)[r.position]? = (bit :: bits ++ rest)[0]? := by
      rw [split, List.getElem?_drop, Nat.add_zero]
    simpa using this
  refine ⟨by rw [Reader.readBit_eq data aligned, here], ?_⟩
  rw [Reader.position_skip]
  exact prefix_drop_append (show [bit] ++ bits <+: _ from ahead)


/-- `count` calls of `read_bit()` in a row, with the bits in the order they come: the reads of
`decode`'s depth and path loops, without what those loops do with each bit. -/
def readBits (data : List UInt8) : Nat → Reader → Except Fault (List Bool × Reader)
  | 0, r => .ok ([], r)
  | count + 1, r =>
      match r.readBit data with
      | .error fault => .error fault
      | .ok (bit, r) =>
          match readBits data count r with
          | .error fault => .error fault
          | .ok (bits, r) => .ok (bit :: bits, r)

/-- `read_bit` calls where the stream is known to hold `bits` return them and move past them. -/
theorem readBits_ahead {data : List UInt8} {r : Reader} (aligned : r.Aligned) {bits : List Bool}
    (ahead : bits <+: (byteBits data).drop r.position) :
    readBits data bits.length r = .ok (bits, r.skip bits.length) := by
  induction bits generalizing r with
  | nil => rw [List.length_nil, readBits, Reader.skip_zero aligned]
  | cons bit bits ih =>
      obtain ⟨first, rest⟩ := readBit_ahead aligned ahead
      rw [List.length_cons, readBits, first]
      simp only [ih (Reader.skip_aligned r 1) rest, Reader.skip_skip, Nat.add_comm 1]

/-- **A bit loop where the stream holds `bits`, with every index below the bound**, folds them in
and moves past them. -/
theorem readFold_ahead {α : Type} {data : List UInt8} {bound : Nat} (fault : Nat → Fault)
    (update : Nat → α → Bool → α) {r : Reader} (aligned : r.Aligned) {bits : List Bool}
    (ahead : bits <+: (byteBits data).drop r.position) (index : Nat) (below : index + bits.length ≤ bound)
    (acc : α) :
    readFold data bound fault update bits.length index acc r =
      .ok (bits.foldlIdx update acc index, r.skip bits.length) := by
  induction bits generalizing index acc r with
  | nil => rw [List.length_nil, readFold, Reader.skip_zero aligned]; rfl
  | cons bit bits ih =>
      obtain ⟨first, rest⟩ := readBit_ahead aligned ahead
      simp only [List.length_cons] at below
      rw [List.length_cons, readFold, first]
      simp only [if_neg (show ¬bound ≤ index by omega),
        ih (Reader.skip_aligned r 1) rest (index + 1) (by omega),
        Reader.skip_skip, Nat.add_comm 1, List.foldlIdx]

/-! ### The writer's bytes, read back -/

/-- **Bits written from a byte boundary come back from `read_bit`.** A writer at a byte boundary
that is fed `bits` (`write_bit` for each set bit, `check_bit` after every bit) and flushed has
appended `⌈|bits| / 8⌉` bytes; bit `o` of appended byte `i` is bit `8 i + o` of `bits`, and zero
past its end. A reader started at the first appended byte with cursor 0 returns `bits` in order
on its first `|bits|` calls of `read_bit`, whatever bytes follow. -/
theorem emitBits_readBits (result : List UInt8) (counter : Nat) (bits : List Bool)
    (back : List UInt8) (bitsRead : Nat) (occurrences : List Int) :
    (Writer.emitBits ⟨result, 0, 0, counter⟩ bits).flush = result ++ packBits bits ∧
      (packBits bits).length = (bits.length + 7) / 8 ∧
      (∀ index (inside : index < (packBits bits).length), ∀ offset < 8,
        ((packBits bits)[index]).toNat.testBit offset = bits.getD (8 * index + offset) false) ∧
      readBits ((Writer.emitBits ⟨result, 0, 0, counter⟩ bits).flush ++ back) bits.length
          ⟨result.length, 0, bitsRead, occurrences⟩ =
        .ok (bits, Reader.skip ⟨result.length, 0, bitsRead, occurrences⟩ bits.length) := by
  have holds : Writer.Holds ⟨result, 0, 0, counter⟩ result [] := ⟨rfl, rfl, rfl, by decide⟩
  have appended : (Writer.emitBits ⟨result, 0, 0, counter⟩ bits).flush = result ++ packBits bits :=
    Writer.flush_emitBits holds bits
  refine ⟨appended, packBits_length bits, fun index inside offset small =>
    testBit_packBits bits index inside offset small,
    readBits_ahead (show Reader.Aligned ⟨_, 0, _, _⟩ from Nat.zero_lt_succ 7) ?_⟩
  obtain ⟨rest, split⟩ := prefix_byteBits_packBits bits
  refine ⟨rest ++ byteBits back, ?_⟩
  rw [appended, byteBits_append, byteBits_append, ← split, List.append_assoc]
  simp [Reader.position]

end XLib.XKC
