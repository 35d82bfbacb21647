/-
**The bit writer of `encode`.**

`encode` packs bits with two lambdas over its locals: `write_bit` sets the current bit of
`result_byte`, and `check_bit` counts the bit, pushing `result_byte` once it holds eight. After the
last code a partial byte is flushed. `packBits` says what that produces: byte `i` holds bits
`8 i .. 8 i + 7`, least significant first, and the last byte is padded with zero bits.

* `flush_emitBits`: a writer holding a partial byte of bits `P` that emits `L` and flushes has
  appended `packBits (P ++ L)`: the incremental writer refines the packing.
* `writtenBits_emitBits`: the `uint32_t` counter grows by one per bit, modulo `2 ^ 32`.
* `method1_eq`: `method1` emits the code of a `PathInfo`, its depth bits then its path bits.
-/

import XKC.Path

namespace XLib.XKC

/-- The bytes of a bit sequence: byte `i` holds bits `8 i .. 8 i + 7`, least significant first,
and missing bits of the last byte are zero. -/
def packBits (bits : List Bool) : List UInt8 :=
  (List.range ((bits.length + 7) / 8)).map fun index =>
    UInt8.ofNat (bitsValue ((bits.drop (8 * index)).take 8))

@[simp] theorem packBits_nil : packBits [] = [] := rfl

theorem packBits_length (bits : List Bool) : (packBits bits).length = (bits.length + 7) / 8 := by
  simp [packBits]

/-- Eight bits in front make one byte in front. -/
theorem packBits_append_byte (chunk rest : List Bool) (full : chunk.length = 8) :
    packBits (chunk ++ rest) = UInt8.ofNat (bitsValue chunk) :: packBits rest := by
  rw [packBits, List.length_append, full,
    show (8 + rest.length + 7) / 8 = (rest.length + 7) / 8 + 1 by omega, List.range_succ_eq_map]
  simp only [List.map_cons, List.map_map, Function.comp_def, Nat.mul_zero, List.drop_zero,
    List.take_left' full, packBits]
  refine congrArg _ (List.map_congr_left fun index _ => ?_)
  rw [Nat.mul_succ, Nat.add_comm, ← List.drop_drop, List.drop_left' full]

/-- Fewer than eight bits make one padded byte. -/
theorem packBits_of_short (bits : List Bool) (nonempty : bits ≠ []) (short : bits.length < 8) :
    packBits bits = [UInt8.ofNat (bitsValue bits)] := by
  have : (bits.length + 7) / 8 = 1 := by
    have := List.length_pos.mpr nonempty
    omega
  simp [packBits, this, List.range_succ, List.take_of_length_le short.le]

/-! ### The writer -/

/-- The locals of `encode` that `check_bit` and `write_bit` capture. -/
structure Writer where
  result : List UInt8
  resultByte : Nat
  writtenBitsOnResultByte : Nat
  writtenBits : Nat

namespace Writer

/-- `check_bit()`: count the bit; a full byte is pushed and the next one starts empty. The
`uint32_t` counter wraps at `2 ^ 32`. -/
def checkBit (w : Writer) : Writer :=
  if w.writtenBitsOnResultByte + 1 = 8 then
    ⟨w.result ++ [UInt8.ofNat w.resultByte], 0, 0, (w.writtenBits + 1) % 2 ^ 32⟩
  else ⟨w.result, w.resultByte, w.writtenBitsOnResultByte + 1, (w.writtenBits + 1) % 2 ^ 32⟩

/-- `write_bit()`: `result_byte |= (1 << written_bits_on_result_byte)`, in a `byte_t`. -/
def writeBit (w : Writer) : Writer :=
  { w with resultByte := (w.resultByte ||| 1 <<< w.writtenBitsOnResultByte) % 256 }

/-- One bit as the loops of `method1` emit it: `write_bit()` when it is set, then `check_bit()`. -/
def emitBit (w : Writer) (bit : Bool) : Writer := (if bit then w.writeBit else w).checkBit

/-- Bits emitted one after the other. -/
def emitBits (w : Writer) (bits : List Bool) : Writer := bits.foldl emitBit w

/-- The final flush: `if (written_bits_on_result_byte > 0) result.push_back(result_byte)`. -/
def flush (w : Writer) : List UInt8 :=
  if w.writtenBitsOnResultByte > 0 then w.result ++ [UInt8.ofNat w.resultByte] else w.result

/-- `method1(path_info)`: for `depth_bit < max_depth_bits`, the bit `path_info.depth & (1 <<
depth_bit)`; then for `depth < path_info.depth`, the bit `path_info.bit_path[depth]`. -/
def method1 (maxDepthBits : Nat) (w : Writer) (info : PathInfo) : Writer :=
  let w := (List.range maxDepthBits).foldl (fun w depthBit => w.emitBit (info.depth.testBit depthBit)) w
  (List.range info.depth).foldl (fun w depth => w.emitBit (info.bitPath depth)) w

@[simp] theorem emitBits_nil (w : Writer) : w.emitBits [] = w := rfl

@[simp] theorem emitBits_cons (w : Writer) (bit : Bool) (bits : List Bool) :
    w.emitBits (bit :: bits) = (w.emitBit bit).emitBits bits := rfl

theorem emitBits_append (w : Writer) (first second : List Bool) :
    w.emitBits (first ++ second) = (w.emitBits first).emitBits second := by
  simp [emitBits, List.foldl_append]

/-- The code `method1` emits for a `PathInfo`: the low `max_depth_bits` bits of its depth, then the
first `depth` bits of its path. -/
def codeBits (maxDepthBits : Nat) (info : PathInfo) : List Bool :=
  lowBits maxDepthBits info.depth ++ (List.range info.depth).map info.bitPath

theorem method1_eq (maxDepthBits : Nat) (w : Writer) (info : PathInfo) :
    method1 maxDepthBits w info = w.emitBits (codeBits maxDepthBits info) := by
  simp [method1, codeBits, lowBits, emitBits_append, emitBits, List.foldl_map]

theorem writtenBits_emitBit (w : Writer) (bit : Bool) :
    (w.emitBit bit).writtenBits = (w.writtenBits + 1) % 2 ^ 32 := by
  unfold emitBit checkBit writeBit
  split_ifs <;> rfl

theorem writtenBits_emitBits (w : Writer) (small : w.writtenBits < 2 ^ 32) (bits : List Bool) :
    (w.emitBits bits).writtenBits = (w.writtenBits + bits.length) % 2 ^ 32 := by
  induction bits generalizing w with
  | nil => exact (Nat.mod_eq_of_lt small).symm
  | cons bit bits ih =>
      rw [emitBits_cons, ih _ (by rw [writtenBits_emitBit]; omega), writtenBits_emitBit]
      simp only [List.length_cons]
      omega

/-! ### The writer refines the packing -/

/-- Setting the bit after `pending` in the working byte appends a set bit. -/
theorem bitsValue_or_two_pow (pending : List Bool) :
    bitsValue pending ||| 2 ^ pending.length = bitsValue (pending ++ [true]) :=
  Nat.eq_of_testBit_eq fun index => by
    rw [Nat.testBit_or, testBit_bitsValue, testBit_bitsValue, Nat.testBit_two_pow]
    simp only [List.getD_eq_getElem?_getD]
    rcases Nat.lt_trichotomy index pending.length with before | here | after
    · rw [List.getElem?_append_left before]; simp [Nat.ne_of_gt before]
    · subst here; simp
    · rw [List.getElem?_eq_none (by omega), List.getElem?_eq_none (by simp; omega)]
      simp [Nat.ne_of_lt after]

/-- A writer that has pushed `result` and whose working byte holds the bits `pending`. -/
def Holds (w : Writer) (result : List UInt8) (pending : List Bool) : Prop :=
  w.result = result ∧ w.resultByte = bitsValue pending ∧
    w.writtenBitsOnResultByte = pending.length ∧ pending.length < 8

/-- The working byte after `write_bit()` or not: `pending` with one more bit. -/
theorem resultByte_emit {w : Writer} {result : List UInt8} {pending : List Bool}
    (holds : w.Holds result pending) (bit : Bool) :
    (if bit then w.writeBit else w).resultByte = bitsValue (pending ++ [bit]) ∧
      (if bit then w.writeBit else w).result = w.result ∧
      (if bit then w.writeBit else w).writtenBitsOnResultByte = w.writtenBitsOnResultByte := by
  obtain ⟨-, byte, onByte, short⟩ := holds
  have fits := bitsValue_lt (pending ++ [true])
  have small : 2 ^ (pending.length + 1) ≤ 256 :=
    (Nat.pow_le_pow_right (by norm_num) (by omega : pending.length + 1 ≤ 8)).trans (by norm_num)
  cases bit with
  | false => simp [byte, bitsValue_append]
  | true =>
      simp only [writeBit, if_true, and_true, byte, onByte, Nat.one_shiftLeft, bitsValue_or_two_pow]
      exact Nat.mod_eq_of_lt (by simp at fits; omega)

/-- **One emitted bit**: it joins the working byte, which is pushed once it holds eight bits. -/
theorem emitBit_holds {w : Writer} {result : List UInt8} {pending : List Bool}
    (holds : w.Holds result pending) (bit : Bool) :
    if pending.length + 1 = 8 then
      (w.emitBit bit).Holds (result ++ [UInt8.ofNat (bitsValue (pending ++ [bit]))]) []
    else (w.emitBit bit).Holds result (pending ++ [bit]) := by
  obtain ⟨byte, kept, onByte⟩ := resultByte_emit holds bit
  obtain ⟨pushed, -, count, short⟩ := holds
  unfold emitBit
  generalize (if bit then w.writeBit else w) = set at byte kept onByte
  unfold checkBit
  rw [onByte, count, byte, kept, pushed]
  by_cases full : pending.length + 1 = 8
  · simp only [full, if_true]
    exact ⟨rfl, rfl, rfl, by decide⟩
  · simp only [full, if_false]
    exact ⟨rfl, rfl, by simp, by simp; omega⟩

/-- **The writer refines the packing**: emitting `bits` and flushing appends `packBits` of the
pending bits followed by `bits`. -/
theorem flush_emitBits {w : Writer} {result : List UInt8} {pending : List Bool}
    (holds : w.Holds result pending) (bits : List Bool) :
    (w.emitBits bits).flush = result ++ packBits (pending ++ bits) := by
  induction bits generalizing w result pending with
  | nil =>
      obtain ⟨pushed, byte, count, short⟩ := holds
      unfold flush
      rw [emitBits_nil, count, pushed, byte, List.append_nil]
      split_ifs with nonempty
      · rw [packBits_of_short pending (by rintro rfl; simp at nonempty) short]
      · simp [List.length_eq_zero.mp (by omega : pending.length = 0)]
  | cons bit bits ih =>
      have step := emitBit_holds holds bit
      rw [emitBits_cons]
      split_ifs at step with full
      · rw [ih step, List.nil_append, List.append_assoc, show pending ++ bit :: bits =
          (pending ++ [bit]) ++ bits by simp, packBits_append_byte _ _ (by simp [full]),
          List.singleton_append]
      · rw [ih step, List.append_assoc, List.singleton_append]

end Writer

end XLib.XKC
