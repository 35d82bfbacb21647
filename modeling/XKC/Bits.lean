/-
**Bits of the wire: LSB-first bit lists, byte buffers as bit sequences, the 32-bit counter and
`BitsNeeded`.**

`lowBits width value` is the low `width` bits of `value`, least significant first: the depth field
of every code (`method1` tests `path_info.depth & (1 << depth_bit)` for `depth_bit < width`) and the
bits of one byte in the order `read_bit` visits them. `byteBits` is a whole byte buffer as the bit
sequence that `read_bit` walks.

`bitsNeeded` stands for `BitsNeeded` of `bits.h`. The source includes that header but does not
contain it, so the function is modelled from the spec.

* `bitsValue_lowBits`: the LSB-first value of `lowBits width value` is `value % 2 ^ width`.
* `byteBits_getElem?`: bit `8 * index + offset` of a buffer is bit `offset` of byte `index`.
* `readLe_le32`: the four counter bytes read back as the counter modulo `2 ^ 32`.
* `lt_two_pow_bitsNeeded`, `bitsNeeded_le_of_lt`: `bitsNeeded n` is the least positive width that
  holds `n`.
-/

import Mathlib.Data.Nat.Bitwise
import Mathlib.Tactic.Ring

namespace XLib.XKC

/-! ### Bit lists -/

/-- The low `width` bits of `value`, least significant first. -/
def lowBits (width value : Nat) : List Bool := (List.range width).map value.testBit

/-- The value of a bit list read least significant bit first. -/
def bitsValue : List Bool → Nat
  | [] => 0
  | bit :: rest => bit.toNat + 2 * bitsValue rest

@[simp] theorem lowBits_length (width value : Nat) : (lowBits width value).length = width := by
  simp [lowBits]

theorem lowBits_getD (width value index : Nat) :
    (lowBits width value).getD index false = (decide (index < width) && value.testBit index) := by
  by_cases inside : index < width
  · simp [lowBits, inside]
  · have outside : (List.range width)[index]? = none := List.getElem?_eq_none (by simp; omega)
    simp [lowBits, inside, outside]

@[simp] theorem bitsValue_nil : bitsValue [] = 0 := rfl

@[simp] theorem bitsValue_cons (bit : Bool) (rest : List Bool) :
    bitsValue (bit :: rest) = bit.toNat + 2 * bitsValue rest := rfl

/-- Bit `index` of the value of a bit list is the list's entry there. -/
theorem testBit_bitsValue (bits : List Bool) (index : Nat) :
    (bitsValue bits).testBit index = bits.getD index false := by
  induction bits generalizing index with
  | nil => simp
  | cons bit rest ih =>
      cases index with
      | zero => cases bit <;> simp [Nat.testBit_zero, Nat.add_mod]
      | succ index =>
          rw [Nat.testBit_succ, bitsValue_cons,
            show (bit.toNat + 2 * bitsValue rest) / 2 = bitsValue rest by cases bit <;> simp; omega]
          simpa using ih index

theorem bitsValue_lt (bits : List Bool) : bitsValue bits < 2 ^ bits.length := by
  induction bits with
  | nil => simp
  | cons bit rest ih => cases bit <;> simp [Nat.pow_succ] <;> omega

theorem bitsValue_append (first second : List Bool) :
    bitsValue (first ++ second) = bitsValue first + 2 ^ first.length * bitsValue second := by
  induction first with
  | nil => simp
  | cons bit rest ih => simp [ih, Nat.pow_succ]; ring

theorem bitsValue_lowBits (width value : Nat) :
    bitsValue (lowBits width value) = value % 2 ^ width :=
  Nat.eq_of_testBit_eq fun index => by
    rw [testBit_bitsValue, lowBits_getD, Nat.testBit_mod_two_pow]

/-- A list is the low bits of its own value. -/
theorem lowBits_bitsValue (bits : List Bool) : lowBits bits.length (bitsValue bits) = bits :=
  List.ext_getElem (by simp) fun index inside _ => by
    simp only [lowBits, List.getElem_map, List.getElem_range, testBit_bitsValue]
    simp [List.getD_eq_getElem?_getD, List.getElem?_eq_getElem (by simpa using inside)]

/-! ### Byte buffers as bit sequences -/

@[simp] theorem toNat_ofNat_byte (value : Nat) : (UInt8.ofNat value).toNat = value % 256 := by
  simp [UInt8.ofNat, UInt8.toNat, BitVec.toNat_ofNat]

@[simp] theorem ofNat_toNat_byte (byte : UInt8) : UInt8.ofNat byte.toNat = byte :=
  UInt8.toNat.inj (by rw [toNat_ofNat_byte]; exact Nat.mod_eq_of_lt byte.toNat_lt_size)

/-- A byte buffer as the bit sequence `read_bit` walks: each byte's bits, least significant first. -/
def byteBits (bytes : List UInt8) : List Bool := bytes.flatMap fun byte => lowBits 8 byte.toNat

@[simp] theorem byteBits_nil : byteBits [] = [] := rfl

@[simp] theorem byteBits_cons (byte : UInt8) (rest : List UInt8) :
    byteBits (byte :: rest) = lowBits 8 byte.toNat ++ byteBits rest := rfl

@[simp] theorem byteBits_append (first second : List UInt8) :
    byteBits (first ++ second) = byteBits first ++ byteBits second := by
  simp [byteBits]

@[simp] theorem byteBits_length (bytes : List UInt8) : (byteBits bytes).length = 8 * bytes.length := by
  induction bytes with
  | nil => rfl
  | cons byte rest ih => simp [ih]; ring

/-- **Bit `8 * index + offset` of a buffer is bit `offset` of byte `index`.** -/
theorem byteBits_getElem? (bytes : List UInt8) (index offset : Nat) (inside : index < bytes.length)
    (small : offset < 8) :
    (byteBits bytes)[8 * index + offset]? = some ((bytes[index]).toNat.testBit offset) := by
  induction bytes generalizing index with
  | nil => simp at inside
  | cons byte rest ih =>
      cases index with
      | zero => simp [List.getElem?_append_left, lowBits, small]
      | succ index =>
          rw [byteBits_cons, List.getElem?_append_right (by simp; omega), lowBits_length,
            show 8 * (index + 1) + offset - 8 = 8 * index + offset by omega]
          exact ih index (by simpa using inside)

/-! ### The 32-bit counter -/

/-- The four bytes of a `uint32_t` on a little-endian machine. -/
def le32 (value : Nat) : List UInt8 := (List.range 4).map fun index => UInt8.ofNat (value / 256 ^ index)

/-- Bytes read as a little-endian unsigned integer, as `*view_as<uint32_t*>(...)` reads four and
`view_as<alphabet_T*>(data)` reads `sizeof(alphabet_T)`. -/
def readLe (bytes : List UInt8) : Nat :=
  bytes.foldr (fun byte acc => byte.toNat + 256 * acc) 0

@[simp] theorem readLe_singleton (byte : UInt8) : readLe [byte] = byte.toNat := by
  simp [readLe]

@[simp] theorem le32_length (value : Nat) : (le32 value).length = 4 := by simp [le32]

theorem readLe_le32 (value : Nat) : readLe (le32 value) = value % 2 ^ 32 := by
  simp only [le32, readLe, List.range_succ, List.range_zero, List.nil_append, List.map_append,
    List.map_cons, List.map_nil, List.cons_append, List.singleton_append, List.foldr_cons,
    List.foldr_nil, toNat_ofNat_byte]
  omega

/-! ### `BitsNeeded` -/

/-- How often `value` can be halved before it is zero, with at most `fuel` halvings. -/
def shiftCount : Nat → Nat → Nat
  | 0, _ => 0
  | fuel + 1, value => if value = 0 then 0 else shiftCount fuel (value / 2) + 1

/-- Modelled from the spec: `BitsNeeded` lives in `bits.h`, which the source includes but does not
contain. §4.5 sets `max_depth_bits` to "the number of bits needed to represent the tree's maximum
height", and §8 asks every non-empty buffer to round-trip, a buffer of one repeated byte (a tree of
height 0) among them: so `BitsNeeded` is the length of the binary representation, with `0` written
as the one digit `0`. -/
def bitsNeeded (value : Nat) : Nat := shiftCount value (value / 2) + 1

example : bitsNeeded 0 = 1 ∧ bitsNeeded 1 = 1 ∧ bitsNeeded 2 = 2 ∧ bitsNeeded 8 = 4 := by decide

theorem lt_two_pow_shiftCount (fuel value : Nat) (enough : value ≤ fuel) :
    value < 2 ^ shiftCount fuel value := by
  induction fuel generalizing value with
  | zero => simp [shiftCount]; omega
  | succ fuel ih =>
      by_cases zero : value = 0
      · simp [shiftCount, zero]
      · have half := ih (value / 2) (by omega)
        simp only [shiftCount, zero, if_false, Nat.pow_succ]
        omega

theorem shiftCount_le_of_lt (fuel value width : Nat) (fits : value < 2 ^ width) :
    shiftCount fuel value ≤ width := by
  induction fuel generalizing value width with
  | zero => simp [shiftCount]
  | succ fuel ih =>
      by_cases zero : value = 0
      · simp [shiftCount, zero]
      · cases width with
        | zero => simp at fits; omega
        | succ width =>
            have half := ih (value / 2) width (by rw [Nat.pow_succ] at fits; omega)
            simp only [shiftCount, zero, if_false]
            omega

/-- Every value fits in `bitsNeeded` of itself bits: the spec's `2 ^ max_depth_bits - 1 ≥ height`. -/
theorem lt_two_pow_bitsNeeded (value : Nat) : value < 2 ^ bitsNeeded value := by
  have half := lt_two_pow_shiftCount value (value / 2) (Nat.div_le_self _ _)
  rw [bitsNeeded, Nat.pow_succ]
  omega

/-- No narrower positive width holds the value. -/
theorem bitsNeeded_le_of_lt {value width : Nat} (fits : value < 2 ^ width) (positive : 0 < width) :
    bitsNeeded value ≤ width := by
  obtain ⟨width, rfl⟩ := Nat.exists_eq_add_of_lt positive
  rw [Nat.zero_add, Nat.pow_succ] at fits
  have half := shiftCount_le_of_lt value (value / 2) width (by omega)
  rw [bitsNeeded]
  omega

theorem bitsNeeded_pos (value : Nat) : 0 < bitsNeeded value := Nat.succ_pos _

end XLib.XKC
