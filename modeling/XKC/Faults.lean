/-
**The faults of `decode`: a read outside the buffer or a null node, and nothing else.**

The model of `decode` stops with a `Fault` wherever the C++ program has undefined behaviour or does
not end. Two of them come from the bytes alone, whatever the program's arithmetic: a read outside
the buffer, and a path to a null node. The other three come from the width of the depth field:
`bit << depth_bit` by 32 or more on an `int`, an index past `bit_path`, and a loop that reads no
bit. Each round is sorted first, then the loop by induction on its fuel.

* `readFold_fault` — **the two bit loops**: either fails only by reading past the buffer or at an
  index past its bound; the depth loop's bound is the 32 bits of an `int`, the path loop's the
  size of `bit_path`.
* `decodeStep_fault`, `decodeLoop_fault` — **a round and the loop**: with `max_depth_bits ≤ 31` and
  `2 ^ max_depth_bits` bits in `bit_path`, a round fails only on an access, and the loop also by
  running out of fuel.
* `decode_faults` — **the whole run**: on every buffer with `1 ≤ D[0] ≤ 31` and
  `2 ^ D[0] ≤ |bit_path|` (`D[0] ≤ 8` for `byte_t`), `decode` fails only by reading outside the
  buffer or following a path to a null node: never by an undefined shift, never past `bit_path`,
  and never by a loop that does not end.
-/

import XKC.Accepted

namespace XLib.XKC

/-- The faults the bytes of the buffer cause on their own: a read outside it, or a path to a null
node. -/
def Fault.isAccess : Fault → Bool
  | .readOutOfBounds _ => true
  | .nullNode => true
  | _ => false

/-! ### The header -/

theorem readAt_fault {data : List UInt8} {index : Nat} {fault : Fault}
    (failed : readAt data index = .error fault) : fault.isAccess := by
  unfold readAt at failed
  split at failed
  · cases failed
  · cases failed; rfl

theorem readAlphabet_fault {data : List UInt8} {count index : Nat} {fault : Fault}
    (failed : readAlphabet data count index = .error fault) : fault.isAccess := by
  induction count generalizing index with
  | zero => cases failed
  | succ count ih =>
      unfold readAlphabet at failed
      split at failed
      · rename_i other read
        cases failed
        exact readAt_fault read
      · split at failed
        · rename_i other later
          cases failed
          exact ih later
        · cases failed

/-- **The header fails only by reading outside the buffer.** -/
theorem parseHeader_fault {width : Nat} {data : List UInt8} {fault : Fault}
    (failed : parseHeader width data = .error fault) : fault.isAccess := by
  rcases bind_eq_error failed with first | ⟨_, -, failed⟩
  · exact readAt_fault first
  rcases bind_eq_error failed with second | ⟨_, -, failed⟩
  · exact readAt_fault second
  rcases bind_eq_error failed with counter | ⟨_, -, failed⟩
  · unfold readCounter at counter
    split at counter
    · cases counter; rfl
    · cases counter
  rcases bind_eq_error failed with letters | ⟨_, -, failed⟩
  · exact readAlphabet_fault letters
  · cases failed

/-! ### One round -/

theorem readBit_fault {data : List UInt8} {r : Reader} {fault : Fault}
    (failed : r.readBit data = .error fault) : fault.isAccess := by
  unfold Reader.readBit at failed
  split at failed
  · rename_i other read
    cases failed
    exact readAt_fault read
  · cases failed

/-- **A bit loop fails only by reading past the buffer, or at an index past its bound**, one of the
indices it had still to visit. -/
theorem readFold_fault {α : Type} {data : List UInt8} {bound : Nat} {fault : Nat → Fault}
    {update : Nat → α → Bool → α} {count index : Nat} {acc : α} {r : Reader} {failure : Fault}
    (failed : readFold data bound fault update count index acc r = .error failure) :
    failure.isAccess ∨ ∃ past, bound ≤ past ∧ past < index + count ∧ failure = fault past := by
  induction count generalizing index acc r with
  | zero => cases failed
  | succ count ih =>
      unfold readFold at failed
      split at failed
      · rename_i other read
        cases failed
        exact Or.inl (readBit_fault read)
      · split_ifs at failed with beyond
        · exact Or.inr ⟨index, beyond, by omega, (Except.error.inj failed).symm⟩
        · exact (ih failed).imp_right fun ⟨past, beyond, below, same⟩ => ⟨past, beyond, by omega, same⟩

section Round

variable {data : List UInt8} {ctx : Context} (narrow : ctx.maxDepthBits ≤ 31)
  (room : 2 ^ ctx.maxDepthBits ≤ ctx.bitPathSize)
include narrow room

/-- **A round fails only on an access**: its depth field is read within an `int` and below its sign
bit, so the depth it holds is below `2 ^ max_depth_bits` and the path fits in `bit_path`; what is
left is a read past the buffer or a path to a null node. -/
theorem decodeStep_fault {r : Reader} (aligned : r.Aligned) {fault : Fault}
    (failed : decodeStep data ctx r = .error fault) : fault.isAccess := by
  unfold decodeStep at failed
  split at failed
  · rename_i other depthRead
    cases failed
    rcases readFold_fault depthRead with access | ⟨past, beyond, below, -⟩
    · exact access
    · omega
  rename_i depth next depthRead
  obtain ⟨bits, length, -, rfl, rfl⟩ := readFold_sound aligned depthRead
  have fits : bits.foldlIdx orBit 0 0 < 2 ^ ctx.maxDepthBits := by
    have value := foldlIdx_orBit [] bits (by simpa [length] using narrow)
    simp only [List.nil_append, List.length_nil, bitsValue_nil] at value
    exact value ▸ length ▸ bitsValue_lt bits
  split at failed
  · rename_i other pathRead
    cases failed
    rcases readFold_fault pathRead with access | ⟨past, beyond, below, -⟩
    · exact access
    · omega
  · split at failed
    · cases failed
    · cases failed; rfl

/-- **The loop fails only on an access or for lack of fuel.** -/
theorem decodeLoop_fault {fuel : Nat} {r : Reader} (aligned : r.Aligned) {fault : Fault}
    (failed : decodeLoop data ctx fuel r = .error fault) : fault.isAccess ∨ fault = .outOfFuel := by
  induction fuel generalizing r with
  | zero => cases failed; exact Or.inr rfl
  | succ fuel ih =>
      unfold decodeLoop at failed
      split_ifs at failed
      · split at failed
        · rename_i other stepped
          cases failed
          exact Or.inl (decodeStep_fault narrow room aligned stepped)
        · rename_i next stepped
          exact ih (bitsRead_decodeStep aligned stepped).2 failed

end Round

/-- **`decode` fails only on an access**: on every buffer with `1 ≤ D[0] ≤ 31` and `2 ^ D[0]` bits in
`bit_path`, it stops only by reading outside the buffer or following a path to a null node. It never
shifts an `int` by 32 or more, never indexes past `bit_path`, and its loop always ends. -/
theorem decode_faults {width : Nat} {data : List UInt8} {fault : Fault}
    (reads : 1 ≤ (data.getD 0 0).toNat) (narrow : (data.getD 0 0).toNat ≤ 31)
    (room : 2 ^ (data.getD 0 0).toNat ≤ bitPathSize width) (failed : decode width data = .error fault) :
    fault.isAccess := by
  rcases bind_eq_error failed with header | ⟨ctx, parsed, failed⟩
  · exact parseHeader_fault header
  obtain ⟨-, rfl⟩ := parseHeader_sound parsed
  rcases bind_eq_error failed with looped | ⟨_, -, failed⟩
  · have start : (declaredContext width data).start.Aligned := Nat.succ_pos 7
    rcases decodeLoop_fault narrow room start looped with access | fuel
    · exact access
    · subst fuel
      exact absurd looped (decodeLoop_ends (show 0 < (declaredContext width data).maxDepthBits from reads) _ start
        (Nat.lt_succ_of_le (Nat.sub_le _ _))).1
  · cases failed

theorem decode_faults_example :
    1 ≤ (([1, 1, 0x41, 0x42, 0x06, 3, 0, 0, 0] : List UInt8).getD 0 0).toNat ∧
      (([1, 1, 0x41, 0x42, 0x06, 3, 0, 0, 0] : List UInt8).getD 0 0).toNat ≤ 31 ∧
      2 ^ (([1, 1, 0x41, 0x42, 0x06, 3, 0, 0, 0] : List UInt8).getD 0 0).toNat ≤ bitPathSize 1 ∧
      decode 1 [1, 1, 0x41, 0x42, 0x06, 3, 0, 0, 0] = .error .nullNode ∧ Fault.nullNode.isAccess :=
  ⟨by decide, by decide, by decide, by decide,
    decode_faults (by decide) (by decide) (by decide)
      (show decode 1 [1, 1, 0x41, 0x42, 0x06, 3, 0, 0, 0] = _ by decide)⟩

end XLib.XKC
