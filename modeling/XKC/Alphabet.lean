/-
**Runs and the alphabet: the first loops of `encode`.**

`collapse` is the "Store contiguous values" loop: it cuts the symbols into `Occurrence`s, a run
ending where the symbol changes or the `byte_t` count reaches 255. `buildAlphabet` is the
`find_if` loop that adds each run's count to its symbol's `Letter`, or appends a new one.
`std::sort` with `a.freq > b.freq` leaves letters of equal frequency in an order the standard does
not fix, so the model takes the sort as a `FreqSort`: any function with the standard's guarantee.

* `expand_collapse`: the runs spell the input back.
* `count_collapse`, `chain_collapse`: every run counts 1 to 255 symbols, and two neighbouring runs
  share a symbol only when the first is full.
* `buildAlphabet_collapse`: the alphabet lists each distinct symbol once, in first-seen order, with
  its number of occurrences in the input.
* `sortedAlphabet_values`: after the sort, the letters are the distinct symbols, each once, ordered
  by non-increasing count.
-/

import XKC.Bits
import Mathlib.Data.List.Sort
import Mathlib.Data.List.Chain

namespace XLib.XKC

/-! ### Runs -/

/-- `Occurrence`: one symbol and the length of its run. -/
structure Occurrence where
  letterValue : Nat
  count : Nat
  deriving Repr, DecidableEq

/-- The inner `for` loop of the run collapse: the current run absorbs the next value unless its
count has reached `numeric_limits<byte_t>::max()` or the value differs; otherwise the run is pushed
and the outer `while` loop starts the next one at that value. -/
def collapseFrom (current : Occurrence) : List Nat → List Occurrence
  | [] => [current]
  | value :: rest =>
      if current.count = 255 then current :: collapseFrom ⟨value, 1⟩ rest
      else if current.letterValue ≠ value then current :: collapseFrom ⟨value, 1⟩ rest
      else collapseFrom { current with count := current.count + 1 } rest

/-- The "Store contiguous values" loop of `encode`. -/
def collapse : List Nat → List Occurrence
  | [] => []
  | value :: rest => collapseFrom ⟨value, 1⟩ rest

/-- The symbols a list of runs stands for. -/
def expand (occurrences : List Occurrence) : List Nat :=
  occurrences.flatMap fun occurrence => List.replicate occurrence.count occurrence.letterValue

@[simp] theorem expand_nil : expand [] = [] := rfl

@[simp] theorem expand_cons (occurrence : Occurrence) (rest : List Occurrence) :
    expand (occurrence :: rest) =
      List.replicate occurrence.count occurrence.letterValue ++ expand rest := rfl

theorem expand_append (first second : List Occurrence) :
    expand (first ++ second) = expand first ++ expand second := by
  simp [expand]

theorem expand_collapseFrom (current : Occurrence) (rest : List Nat) :
    expand (collapseFrom current rest) =
      List.replicate current.count current.letterValue ++ rest := by
  induction rest generalizing current with
  | nil => simp [collapseFrom]
  | cons value rest ih =>
      simp only [collapseFrom]
      split_ifs with full differs
      · simp [ih]
      · simp [ih]
      · rw [ih]
        simp only [not_not] at differs
        simp [differs, List.replicate_succ']

/-- **The runs spell the input back.** -/
theorem expand_collapse (values : List Nat) : expand (collapse values) = values := by
  cases values with
  | nil => rfl
  | cons value rest => simp [collapse, expand_collapseFrom]

/-- Every run of `collapseFrom` from a run of count in `[1, 255]` has a count in `[1, 255]`. -/
theorem count_collapseFrom (current : Occurrence) (rest : List Nat)
    (bounded : 1 ≤ current.count ∧ current.count ≤ 255) :
    ∀ occurrence ∈ collapseFrom current rest, 1 ≤ occurrence.count ∧ occurrence.count ≤ 255 := by
  induction rest generalizing current with
  | nil => simpa [collapseFrom] using bounded
  | cons value rest ih =>
      simp only [collapseFrom]
      split_ifs with full differs
      · exact List.forall_mem_cons.mpr ⟨bounded, ih _ (by simp)⟩
      · exact List.forall_mem_cons.mpr ⟨bounded, ih _ (by simp)⟩
      · exact ih _ (by simp; omega)

theorem count_collapse (values : List Nat) :
    ∀ occurrence ∈ collapse values, 1 ≤ occurrence.count ∧ occurrence.count ≤ 255 := by
  cases values with
  | nil => simp [collapse]
  | cons value rest => exact count_collapseFrom _ rest (by simp)

/-- The first run of `collapseFrom` is the current run's symbol. -/
theorem head_collapseFrom (current : Occurrence) (rest : List Nat) :
    ∀ first ∈ (collapseFrom current rest).head?, first.letterValue = current.letterValue := by
  induction rest generalizing current with
  | nil => simp [collapseFrom]
  | cons value rest ih =>
      simp only [collapseFrom]
      split_ifs
      · simp
      · simp
      · exact ih _

/-- Two neighbouring runs of `collapseFrom` share a symbol only after a full run of 255. -/
theorem chain_collapseFrom (current : Occurrence) (rest : List Nat) :
    (collapseFrom current rest).Chain' fun first next =>
      first.letterValue = next.letterValue → first.count = 255 := by
  induction rest generalizing current with
  | nil => exact List.chain'_singleton _
  | cons value rest ih =>
      simp only [collapseFrom]
      split_ifs with full differs
      · exact List.chain'_cons'.mpr ⟨fun _ _ _ => full, ih _⟩
      · refine List.chain'_cons'.mpr ⟨fun next isHead same => ?_, ih _⟩
        exact absurd (same.trans (head_collapseFrom _ rest next isHead)) differs
      · exact ih _

theorem chain_collapse (values : List Nat) :
    (collapse values).Chain' fun first next =>
      first.letterValue = next.letterValue → first.count = 255 := by
  cases values with
  | nil => exact List.chain'_nil
  | cons value rest => exact chain_collapseFrom _ rest

/-! ### The alphabet -/

/-- `Letter`: a symbol and its accumulated frequency. -/
structure Letter where
  value : Nat
  freq : Nat
  deriving Repr, DecidableEq

/-- One turn of the alphabet loop: `find_if` the occurrence's symbol and add its count to that
letter's frequency, or `push_back` a new letter. -/
def addOccurrence : List Letter → Occurrence → List Letter
  | [], occurrence => [⟨occurrence.letterValue, occurrence.count⟩]
  | letter :: rest, occurrence =>
      if occurrence.letterValue = letter.value then
        { letter with freq := letter.freq + occurrence.count } :: rest
      else letter :: addOccurrence rest occurrence

/-- The "Construct the alphabet" loop of `encode`. -/
def buildAlphabet (occurrences : List Occurrence) : List Letter :=
  occurrences.foldl addOccurrence []

/-- The distinct values of a list, in the order they first appear. -/
def firstSeen (values : List Nat) : List Nat :=
  values.foldl (fun seen value => if value ∈ seen then seen else seen ++ [value]) []

theorem firstSeen_append_singleton (values : List Nat) (value : Nat) :
    firstSeen (values ++ [value]) =
      if value ∈ firstSeen values then firstSeen values else firstSeen values ++ [value] := by
  simp [firstSeen, List.foldl_append]

theorem mem_firstSeen (values : List Nat) (x : Nat) : x ∈ firstSeen values ↔ x ∈ values := by
  induction values using List.reverseRecOn with
  | nil => simp [firstSeen]
  | append_singleton values value ih =>
      rw [firstSeen_append_singleton]
      split_ifs with seen
      · simp only [List.mem_append, List.mem_singleton, ← ih]
        constructor
        · exact Or.inl
        · rintro (inside | rfl) <;> assumption
      · simp [ih]

theorem nodup_firstSeen (values : List Nat) : (firstSeen values).Nodup := by
  induction values using List.reverseRecOn with
  | nil => simp [firstSeen]
  | append_singleton values value ih =>
      rw [firstSeen_append_singleton]
      split_ifs with seen
      · exact ih
      · exact List.nodup_append.mpr ⟨ih, by simp, by simpa using seen⟩

/-- The letters of the distinct values of `seen`, each with its count in `seen`. -/
def tally (seen : List Nat) : List Letter :=
  (firstSeen seen).map fun value => ⟨value, seen.count value⟩

/-- `addOccurrence` on a list of letters with distinct values, mapped from a list of values. -/
theorem addOccurrence_map (values : List Nat) (distinct : values.Nodup) (freq : Nat → Nat)
    (occurrence : Occurrence) :
    addOccurrence (values.map fun value => ⟨value, freq value⟩) occurrence =
      if occurrence.letterValue ∈ values then
        values.map fun value =>
          ⟨value, freq value + if value = occurrence.letterValue then occurrence.count else 0⟩
      else (values.map fun value => ⟨value, freq value⟩) ++ [⟨occurrence.letterValue, occurrence.count⟩] := by
  induction values with
  | nil => simp [addOccurrence]
  | cons value rest ih =>
      obtain ⟨fresh, distinct⟩ := List.nodup_cons.mp distinct
      simp only [List.map_cons, addOccurrence, List.mem_cons, ih distinct]
      by_cases here : occurrence.letterValue = value
      · subst here
        simp only [if_true, true_or]
        refine congrArg _ (List.map_congr_left fun other inRest => ?_)
        have : other ≠ occurrence.letterValue := fun same => fresh (same ▸ inRest)
        simp [this]
      · simp only [here, if_false, false_or, Ne.symm here]
        split_ifs <;> simp

theorem firstSeen_append_replicate (seen : List Nat) {count : Nat} (positive : 0 < count) (value : Nat) :
    firstSeen (seen ++ List.replicate count value) =
      if value ∈ firstSeen seen then firstSeen seen else firstSeen seen ++ [value] := by
  induction count with
  | zero => omega
  | succ count ih =>
      rw [List.replicate_succ', ← List.append_assoc, firstSeen_append_singleton]
      cases count with
      | zero => simp
      | succ count =>
          rw [ih (by omega)]
          split_ifs <;> simp_all

/-- One run added to a tally is the tally of the longer input. -/
theorem addOccurrence_tally (seen : List Nat) (occurrence : Occurrence) (positive : 0 < occurrence.count) :
    addOccurrence (tally seen) occurrence =
      tally (seen ++ List.replicate occurrence.count occurrence.letterValue) := by
  rw [tally, addOccurrence_map _ (nodup_firstSeen seen), tally,
    firstSeen_append_replicate seen positive]
  split_ifs with seenBefore
  · refine List.map_congr_left fun value _ => ?_
    by_cases same : value = occurrence.letterValue
    · simp [List.count_replicate, same]
    · simp [List.count_replicate, same, Ne.symm same]
  · have unseen : occurrence.letterValue ∉ seen := by rwa [mem_firstSeen] at seenBefore
    simp only [List.map_append, List.map_cons, List.map_nil, List.count_append,
      List.count_replicate_self, List.count_eq_zero_of_not_mem unseen, Nat.zero_add]
    refine congrArg (· ++ _) (List.map_congr_left fun value inside => ?_)
    have : value ≠ occurrence.letterValue := fun same => seenBefore (same ▸ inside)
    simp [List.count_replicate, Ne.symm this]

theorem buildAlphabet_append_singleton (occurrences : List Occurrence) (occurrence : Occurrence) :
    buildAlphabet (occurrences ++ [occurrence]) = addOccurrence (buildAlphabet occurrences) occurrence := by
  simp [buildAlphabet, List.foldl_append]

/-- Runs of positive length fold to the tally of the symbols they stand for. -/
theorem buildAlphabet_eq_tally (occurrences : List Occurrence)
    (positive : ∀ occurrence ∈ occurrences, 0 < occurrence.count) :
    buildAlphabet occurrences = tally (expand occurrences) := by
  induction occurrences using List.reverseRecOn with
  | nil => rfl
  | append_singleton occurrences occurrence ih =>
      rw [buildAlphabet_append_singleton, ih fun o inside => positive o (by simp [inside]),
        addOccurrence_tally _ _ (positive occurrence (by simp)), expand_append]
      simp

/-- **The alphabet of the runs lists each distinct symbol once, in first-seen order, with its
number of occurrences in the input.** -/
theorem buildAlphabet_collapse (values : List Nat) : buildAlphabet (collapse values) = tally values := by
  rw [buildAlphabet_eq_tally _ fun o inside => (count_collapse values o inside).1, expand_collapse]

/-! ### The sort -/

/-- The order of the `std::sort` call: `a` may stand before `b` when `b.freq ≤ a.freq`. -/
def freqGe (a b : Letter) : Prop := b.freq ≤ a.freq

instance : DecidableRel freqGe := fun a b => inferInstanceAs (Decidable (b.freq ≤ a.freq))

instance : IsTotal Letter freqGe := ⟨fun a b => Nat.le_total b.freq a.freq⟩

instance : IsTrans Letter freqGe := ⟨fun _ _ _ first second => Nat.le_trans second first⟩

/-- What `std::sort(alphabet.begin(), alphabet.end(), [](a, b) { return a.freq > b.freq; })`
guarantees: a permutation in which no letter follows one of lower frequency. The order of equal
frequencies is left open. -/
structure FreqSort where
  sort : List Letter → List Letter
  perm : ∀ letters, (sort letters).Perm letters
  sorted : ∀ letters, (sort letters).Pairwise freqGe

/-- One admissible `std::sort`: insertion sort, which keeps equal frequencies in input order, as
`std::sort` does on the short ranges it insertion-sorts. -/
def stdSort : FreqSort where
  sort := List.insertionSort freqGe
  perm := List.perm_insertionSort freqGe
  sorted := List.sorted_insertionSort freqGe

/-- The alphabet `encode` writes: the tally of the runs, sorted. -/
def sortedAlphabet (sort : FreqSort) (values : List Nat) : List Letter :=
  sort.sort (buildAlphabet (collapse values))

theorem freq_of_mem_sortedAlphabet (sort : FreqSort) (values : List Nat) {letter : Letter}
    (inside : letter ∈ sortedAlphabet sort values) : letter.freq = values.count letter.value := by
  rw [sortedAlphabet, buildAlphabet_collapse] at inside
  obtain ⟨value, _, same⟩ := List.mem_map.mp ((sort.perm (tally values)).subset inside)
  subst same
  rfl

theorem sortedAlphabet_perm (sort : FreqSort) (values : List Nat) :
    ((sortedAlphabet sort values).map Letter.value).Perm (firstSeen values) := by
  rw [sortedAlphabet, buildAlphabet_collapse]
  simpa [tally, List.map_map, Function.comp_def] using (sort.perm (tally values)).map Letter.value

/-- **The sorted alphabet holds the distinct symbols, each once, by non-increasing count.** -/
theorem sortedAlphabet_values (sort : FreqSort) (values : List Nat) :
    ((sortedAlphabet sort values).map Letter.value).Nodup ∧
      (∀ x, x ∈ (sortedAlphabet sort values).map Letter.value ↔ x ∈ values) ∧
      ((sortedAlphabet sort values).map Letter.value).Pairwise
        (fun a b => values.count b ≤ values.count a) ∧
      (sortedAlphabet sort values).length = (firstSeen values).length := by
  have perm := sortedAlphabet_perm sort values
  refine ⟨perm.nodup_iff.mpr (nodup_firstSeen values), fun x => by rw [perm.mem_iff, mem_firstSeen],
    ?_, by simpa using perm.length_eq⟩
  rw [List.pairwise_map]
  refine (sort.sorted _).imp_of_mem fun {a b} inA inB ordered => ?_
  rwa [← freq_of_mem_sortedAlphabet sort values inA, ← freq_of_mem_sortedAlphabet sort values inB]

/-- A sort leaves a list whose frequencies strictly decrease as it is: no other order of it is
sorted. -/
theorem eq_of_perm_of_strict {sorted letters : List Letter} (perm : sorted.Perm letters)
    (ordered : sorted.Pairwise freqGe) (strict : letters.Pairwise fun a b => b.freq < a.freq) :
    sorted = letters := by
  induction letters generalizing sorted with
  | nil => exact perm.eq_nil
  | cons letter rest ih =>
      obtain ⟨first, later, rfl⟩ : ∃ first later, sorted = first :: later :=
        List.exists_cons_of_ne_nil fun empty => by simp [empty] at perm
      obtain ⟨above, strictRest⟩ := List.pairwise_cons.mp strict
      by_cases same : first = letter
      · subst same
        rw [ih (List.perm_cons first |>.mp perm) (List.pairwise_cons.mp ordered).2 strictRest]
      · have inRest : first ∈ rest := by
          simpa [same] using perm.subset (List.mem_cons_self first later)
        have inLater : letter ∈ later := by
          simpa [Ne.symm same] using perm.symm.subset (List.mem_cons_self letter rest)
        have low := (List.pairwise_cons.mp ordered).1 letter inLater
        have high := above first inRest
        exact absurd low (Nat.not_le.mpr high)

/-- Where the tally's frequencies strictly decrease, every sort gives the tally. -/
theorem sortedAlphabet_of_strict (sort : FreqSort) (values : List Nat)
    (strict : (tally values).Pairwise fun a b => b.freq < a.freq) :
    sortedAlphabet sort values = tally values := by
  rw [sortedAlphabet, buildAlphabet_collapse]
  exact eq_of_perm_of_strict (sort.perm _) (sort.sorted _) strict

end XLib.XKC
