/-
**Why `encode` sorts its alphabet: the header order with the fewest code bits.**

The tree of an alphabet of `k` letters has the same shape whatever the letters' order: the letter at
index `i` sits at depth `⌊log₂ (i + 1)⌋`, and every code has `BitsNeeded(⌊log₂ k⌋)` depth bits. So
the number of code bits `encode` packs is `n · max_depth_bits + Σᵢ count(Aᵢ) · ⌊log₂ (i + 1)⌋`, and
only the second term depends on the order. `encode` lists the letters by non-increasing count, and
the depths do not decrease along the list, so by the rearrangement inequality no other order of the
same letters gives fewer bits.

* `sum_map_eq_sum_count`: a sum over the symbols, grouped by the letters of the alphabet.
* `codeBits_eq`: the code bits of a buffer under any duplicate-free header order.
* `codeStream_length_le_of_perm` — **the sort is optimal**: for every `std::sort` order and every
  other order of the same header letters, `encode`'s stream is no longer than the stream that
  order would give.
-/

import XKC.Rank
import Mathlib.Algebra.Order.Rearrangement
import Mathlib.Algebra.BigOperators.Fin

open Finset

namespace XLib.XKC

/-! ### Counting code bits letter by letter -/

/-- A sum over a list of symbols, grouped by the letters of a duplicate-free alphabet that holds
them: each letter counts as often as it occurs. -/
theorem sum_map_eq_sum_count {alphabet : List Nat} (distinct : alphabet.Nodup) (weight : Nat → Nat)
    (values : List Nat) (covered : ∀ x ∈ values, x ∈ alphabet) :
    (values.map weight).sum =
      ∑ i : Fin alphabet.length, values.count (alphabet.get i) * weight (alphabet.get i) := by
  induction values with
  | nil => simp
  | cons x values ih =>
      have inside := covered x (List.mem_cons_self _ _)
      have once : ∑ i : Fin alphabet.length,
          (if (x == alphabet.get i) = true then 1 else 0) * weight (alphabet.get i) = weight x := by
        rw [Finset.sum_eq_single ⟨alphabet.indexOf x, List.indexOf_lt_length.mpr inside⟩]
        · simp [List.indexOf_get]
        · intro i _ other
          have apart : x ≠ alphabet.get i := fun same => other ((distinct.get_inj_iff).mp
            (by rw [← same, List.indexOf_get]))
          rw [if_neg (by simpa using apart), zero_mul]
        · simp
      simp only [List.map_cons, List.sum_cons, List.count_cons, add_mul, Finset.sum_add_distrib, once,
        ih fun y mem => covered y (List.mem_cons_of_mem _ mem)]
      exact Nat.add_comm _ _

/-- **The code bits under a header order.** With a duplicate-free order and symbols among its
letters, every symbol's code has the `maxDepthBits` depth bits and `⌊log₂ (i + 1)⌋` path bits,
where `i` is its index in the order. -/
theorem codeBits_eq {order : List Nat} (distinct : order.Nodup) (maxDepthBits : Nat) (values : List Nat)
    (covered : ∀ x ∈ values, x ∈ order) :
    (values.flatMap (symbolCode (BinaryTree.build order) maxDepthBits)).length =
      values.length * maxDepthBits + (values.map fun x => Nat.log 2 (order.indexOf x + 1)).sum := by
  induction values with
  | nil => simp
  | cons x values ih =>
      obtain ⟨path, found, depth⟩ :=
        pathTo_build_getElem? distinct (List.getElem?_indexOf (covered x (List.mem_cons_self _ _)))
      rw [List.flatMap_cons, List.length_append, symbolCode_of_pathTo found, List.length_append,
        lowBits_length, depth, ih fun y mem => covered y (List.mem_cons_of_mem _ mem)]
      simp only [List.length_cons, List.map_cons, List.sum_cons, Nat.succ_mul]
      omega

/-! ### The rearrangement -/

section Rearrangement

variable {sorted order : List Nat} (distinct : sorted.Nodup) (reordered : order.Perm sorted)

/-- Where each letter of `sorted` stands in `order`: a permutation of the indices. -/
def reindex (i : Fin sorted.length) : Fin sorted.length :=
  ⟨order.indexOf (sorted.get i), reordered.length_eq ▸
    List.indexOf_lt_length.mpr (reordered.mem_iff.mpr (List.get_mem _ _ _))⟩

include distinct reordered

theorem reindex_bijective : Function.Bijective (reindex reordered) := by
  refine Finite.injective_iff_bijective.mp fun i j same => (distinct.get_inj_iff).mp ?_
  have indices : order.indexOf (sorted.get i) = order.indexOf (sorted.get j) := congrArg Fin.val same
  have inI := List.indexOf_lt_length.mpr (reordered.mem_iff.mpr (List.get_mem sorted i.1 i.2))
  have inJ := List.indexOf_lt_length.mpr (reordered.mem_iff.mpr (List.get_mem sorted j.1 j.2))
  rw [← List.indexOf_get inI, ← List.indexOf_get inJ]
  simp only [indices]

/-- **The rearrangement inequality for header orders.** When the counts do not increase along
`sorted`, the weighted sum of depths `Σ count · ⌊log₂ (i + 1)⌋` over `sorted` is at most the one
over any reordering. -/
theorem sum_log_le_of_perm (count : Nat → Nat)
    (ordered : sorted.Pairwise fun a b => count b ≤ count a) :
    ∑ i : Fin sorted.length, count (sorted.get i) * Nat.log 2 (sorted.indexOf (sorted.get i) + 1) ≤
      ∑ i : Fin sorted.length, count (sorted.get i) * Nat.log 2 (order.indexOf (sorted.get i) + 1) := by
  have antivary : Antivary (fun i : Fin sorted.length => count (sorted.get i))
      (fun i : Fin sorted.length => Nat.log 2 (i.1 + 1)) := fun i j deeper => by
    have before : i < j := by
      by_contra after
      exact absurd deeper (not_lt.mpr (Nat.log_mono_right (by simp only [not_lt] at after; omega)))
    exact List.pairwise_iff_get.mp ordered i j before
  have rearranged :=
    antivary.sum_mul_le_sum_mul_comp_perm (σ := Equiv.ofBijective _ (reindex_bijective distinct reordered))
  simpa only [List.get_indexOf distinct] using rearranged

end Rearrangement

/-! ### The sorted header is optimal -/

/-- **The sort is optimal.** For every `std::sort` order and every other order of the same header
letters, the codes `encode` packs are no longer than the codes that order would give: both trees
have the same height, so the same depth field, and the sorted order puts the most frequent letters
at the shallowest nodes. -/
theorem codeStream_length_le_of_perm (sort : FreqSort) (data : List UInt8) {order : List Nat}
    (reordered : order.Perm (headerAlphabet sort data)) :
    (codeStream sort data).length ≤ ((data.map UInt8.toNat).flatMap
      (symbolCode (BinaryTree.build order) (bitsNeeded (BinaryTree.build order).root.height))).length := by
  by_cases empty : data = []
  · subst empty; simp [codeStream]
  obtain ⟨positive, bounded, members⟩ := headerAlphabet_bytes sort empty
  have distinct : (headerAlphabet sort data).Nodup := (sortedAlphabet_values sort _).1
  have ordered : (headerAlphabet sort data).Pairwise fun a b =>
      (data.map UInt8.toNat).count b ≤ (data.map UInt8.toNat).count a := (sortedAlphabet_values sort _).2.2.1
  have covered : ∀ x ∈ data.map UInt8.toNat, x ∈ headerAlphabet sort data := fun x mem => (members x).mpr mem
  have sameHeight : (BinaryTree.build order).root.height =
      (BinaryTree.build (headerAlphabet sort data)).root.height := by
    rw [(build_height_le _ (reordered.length_eq ▸ positive) (reordered.length_eq ▸ bounded)).2.1,
      (build_height_le _ positive bounded).2.1, reordered.length_eq]
  simp only [codeStream]
  rw [sameHeight, codeBits_eq distinct _ _ covered,
    codeBits_eq (reordered.nodup_iff.mpr distinct) _ _ fun x mem => reordered.mem_iff.mpr (covered x mem),
    sum_map_eq_sum_count distinct _ _ covered, sum_map_eq_sum_count distinct _ _ covered]
  exact Nat.add_le_add_left (sum_log_le_of_perm distinct reordered _ ordered) _

theorem codeStream_length_le_of_perm_example :
    List.Perm [0x43, 0x42, 0x41] (headerAlphabet stdSort [0x41, 0x42, 0x41, 0x43]) ∧
      (codeStream stdSort [0x41, 0x42, 0x41, 0x43]).length ≤
        ((([0x41, 0x42, 0x41, 0x43] : List UInt8).map UInt8.toNat).flatMap (symbolCode
          (BinaryTree.build [0x43, 0x42, 0x41]) (bitsNeeded (BinaryTree.build [0x43, 0x42, 0x41]).root.height))).length :=
  ⟨by decide, codeStream_length_le_of_perm stdSort _ (by decide)⟩

end XLib.XKC
