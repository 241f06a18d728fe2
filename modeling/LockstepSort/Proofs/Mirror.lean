import LockstepSort.Proofs.Likeness.Sort
import LockstepSort.Proofs.Unsplit

/-!
# The two directions as mirror images

A list read backwards, sorted stably the other way round, is the stable sort of the list read
backwards: ties keep their order in either direction, so they do so in the mirror.  What sorts
stably is therefore the mirror image of itself in the other direction.  A split is not, as it does
not keep ties in their order.
-/

namespace LockstepSort

/-! ### Stable sorts read backwards -/

/-- The other direction. -/
def Direction.opposite : Direction → Direction
  | ascending => descending
  | descending => ascending

theorem Direction.admits_opposite {K : Type} [Ord K] [Std.OrientedOrd K] (direction : Direction)
    (a b : K) :
  direction.opposite.admits a b = direction.admits b a
  := by
  cases direction <;> simp only [opposite, admits_eq_isLE]

/-- The strategy in the other direction. -/
def Strategy.opposite (strategy : Strategy) : Strategy :=
  { strategy with direction := strategy.direction.opposite }

/-- A stable sort read backwards is one by the order read backwards. -/
theorem IsStableSort.reverse {α : Type} {le : α → α → Bool} {list sorted : List α}
    (h : IsStableSort le list sorted) :
  IsStableSort (fun a b => le b a) list.reverse sorted.reverse
  where
  ordered := List.pairwise_reverse.mpr h.ordered
  ties a := by
    have htied : tied (fun b c => le c b) a = tied le a := by
      funext b
      apply Bool.and_comm
    rw [htied, List.filter_reverse, List.filter_reverse, h.ties]

/-- A list read backwards is sorted the other way round into its stable sort read backwards. -/
theorem Direction.stableSort_reverse {α K : Type} [Ord K] [Std.TransOrd K] (direction : Direction)
    (rank : α → K) (list : List α) :
  direction.opposite.stableSort rank list.reverse = (direction.stableSort rank list).reverse
  := by
  symm
  apply isStableSort_iff.mp
  simp only [admits_opposite]
  apply (direction.isStableSort_stableSort rank list).reverse

/-! ### Pairs read backwards -/

namespace Pairs

variable {K V : Type} {n : Nat} {pairs : Pairs K V n}

/-- The pairs read backwards. -/
def reverse (pairs : Pairs K V n) : Pairs K V n := ⟨pairs.keys.reverse, pairs.values.reverse⟩

@[simp]
theorem toList_reverse (pairs : Pairs K V n) :
  pairs.reverse.toList = pairs.toList.reverse
  := by
  rw [toList, reverse, Vector.toList_reverse, Vector.toList_reverse]
  symm
  apply List.reverse_zipWith
  simp

@[simp]
theorem reverse_reverse (pairs : Pairs K V n) :
  pairs.reverse.reverse = pairs
  := by
  apply toList_injective
  simp

variable [DigitKey K]

/-- Insertion the other way round takes pairs read backwards to the sorted pairs read backwards. -/
theorem insertionSort_reverse [Std.TransOrd K] (direction : Direction) (pairs : Pairs K V n) :
  pairs.reverse.insertionSort direction.opposite = (pairs.insertionSort direction).reverse
  := by
  apply toList_injective
  rw [toList_reverse, toList_insertionSort, toList_insertionSort, toList_reverse,
    Direction.stableSort_reverse]

/-- Pairs that are not split are arranged the other way round, when read backwards, as they are
themselves read backwards. -/
theorem arranged_reverse [Std.TransOrd K] {strategy : Strategy} (hlimit : n ≤ strategy.radixLimit)
    (pairs : Pairs K V n) :
  pairs.reverse.arranged strategy.opposite = (pairs.arranged strategy).reverse
  := by
  have hlimit' : n ≤ strategy.opposite.radixLimit := hlimit
  by_cases hinserts : strategy.insertsAt n
  · have hinserts' : strategy.opposite.insertsAt n := hinserts
    rw [arranged_of_insertsAt hlimit' hinserts', arranged_of_insertsAt hlimit hinserts,
      toList_reverse]
    apply Direction.stableSort_reverse
  · have hinserts' : ¬ strategy.opposite.insertsAt n := hinserts
    rw [arranged_of_not_insertsAt hlimit' hinserts', arranged_of_not_insertsAt hlimit hinserts,
      toList_reverse]
    apply Direction.stableSort_reverse

end Pairs

/-! ### Sorting by digits -/

section

variable {K V : Type} [DigitKey K] {n passes : Nat} {direction : Direction} {span : DigitSpan}
  {pairs : Pairs K V n}

/-- Pairs read backwards are sorted by digits the other way round, into the sorted pairs read
backwards, whatever columns there are to write over. -/
theorem RadixState.exists_sort_reverse {target : Pairs K V n} {result : RadixState K V n}
    (hlimit : n < sizeLimit) (h : sort direction passes ⟨pairs, target⟩ = .ok result)
    (target' : Pairs K V n) :
  ∃ result', sort direction.opposite passes ⟨pairs.reverse, target'⟩ = .ok result'
    ∧ result'.live = result.live.reverse
  := by
  have hread := (exists_sort_iff hlimit).mp ⟨result, h⟩
  obtain ⟨result', h'⟩ : ∃ result', sort direction.opposite passes ⟨pairs.reverse, target'⟩
      = .ok result' := by
    apply (exists_sort_iff hlimit).mpr
    intro pair hpair
    apply hread
    simpa using hpair
  refine ⟨result', h', ?_⟩
  apply Pairs.toList_injective
  rw [toList_sort h', Pairs.toList_reverse, Pairs.toList_reverse, toList_sort h]
  apply Direction.stableSort_reverse

/-- Columns read backwards are sorted by digits the other way round, into the sorted columns read
backwards. -/
theorem Pairs.radixSort_reverse (pairs : Pairs K V n) {scratchKeys scratchKeys' : Array K}
    {scratchValues scratchValues' : Array V} {columns : Array K × Array V}
    (hlimit : n < sizeLimit) (hkeys : scratchKeys'.size = scratchKeys.size)
    (hvalues : scratchValues'.size = scratchValues.size)
    (h : radixSort direction span pairs.keys.toArray pairs.values.toArray scratchKeys scratchValues
      = .ok columns) :
  radixSort direction.opposite span pairs.reverse.keys.toArray pairs.reverse.values.toArray
      scratchKeys' scratchValues'
    = .ok (columns.1.reverse, columns.2.reverse)
  := by
  rw [radixSort_toArray] at h ⊢
  split at h
  next hscratchKeys =>
      split at h
      next hscratchValues =>
          obtain ⟨result, hresult, rfl⟩ := Attempt.within_eq_ok.mp h
          rw [dif_pos (hkeys.trans hscratchKeys), dif_pos (hvalues.trans hscratchValues)]
          obtain ⟨result', hresult', hlive⟩ := RadixState.exists_sort_reverse hlimit hresult _
          apply Attempt.within_eq_ok.mpr
          refine ⟨result', hresult', ?_⟩
          rw [hlive]
          simp [reverse]
      next => contradiction
  next => contradiction

end

/-! ### Sorts of windows -/

section

variable {K V : Type} [DigitKey K] {n n' offset offset' length : Nat} {fits : offset + length ≤ n}
  {fits' : offset' + length ≤ n'} {strategy : Strategy} {pairs : Pairs K V n}
  {pairs' : Pairs K V n'} {scratch scratch' : Option (Scratch K V)}

/-- A request for a window of pairs, and one for these pairs read backwards, wherever they stand,
pass the same checks in opposite directions, with scratch of the same capacity. -/
theorem Pairs.grant_reverse (strategy : Strategy) (hlimit : n < sizeLimit)
    (hlimit' : n' < sizeLimit)
    (hcapacity : scratch'.map Scratch.capacity = scratch.map Scratch.capacity)
    (hslice : pairs'.slice ⟨offset', length, fits'⟩
      = (pairs.slice ⟨offset, length, fits⟩).reverse) :
  (∃ failure, pairs.grant strategy scratch offset length = .error failure
      ∧ pairs'.grant strategy.opposite scratch' offset' length = .error failure)
    ∨ pairs.grant strategy scratch offset length = .ok ⟨offset, length, fits⟩
      ∧ pairs'.grant strategy.opposite scratch' offset' length = .ok ⟨offset', length, fits'⟩
  := by
  have hscratch : checkScratch strategy.opposite scratch' length
      = checkScratch strategy scratch length := checkScratch_congr hcapacity
  have hsigns : checkSigns (pairs'.slice ⟨offset', length, fits'⟩).keys
      = checkSigns (pairs.slice ⟨offset, length, fits⟩).keys := by
    rw [hslice, checkSigns, reverse, Vector.any_reverse]
    rfl
  unfold grant
  rw [windowAt_of_fits hlimit fits, windowAt_of_fits hlimit' fits', hscratch]
  simp only [Except.mapError, bind, Except.bind, hsigns]
  cases checkScratch strategy scratch length with
  | error => exact .inl ⟨_, rfl, rfl⟩
  | ok =>
      cases checkSigns (pairs.slice ⟨offset, length, fits⟩).keys with
      | error => exact .inl ⟨_, rfl, rfl⟩
      | ok => exact .inr ⟨rfl, rfl⟩

/-- A window that is not split is sorted exactly if its pairs, read backwards, are sorted the other
way round, wherever they stand. -/
theorem Run.exists_sort_reverse_iff (hlimit : n < sizeLimit) (hlimit' : n' < sizeLimit)
    (hlength : length ≤ strategy.radixLimit) (hserved : strategy.ServedBy length scratch)
    (hserved' : strategy.opposite.ServedBy length scratch')
    (hslice : pairs'.slice ⟨offset', length, fits'⟩
      = (pairs.slice ⟨offset, length, fits⟩).reverse) :
  (∃ run, (start pairs scratch).sort strategy 0 ⟨offset, length, fits⟩ = .ok run)
    ↔ ∃ run', (start pairs' scratch').sort strategy.opposite 0 ⟨offset', length, fits'⟩ = .ok run'
  := by
  have hnot : strategy.action length ≠ .split := by
    rw [ne_eq, Strategy.action_eq_split_iff]
    omega
  have hnot' : strategy.opposite.action length ≠ .split := hnot
  rw [exists_sort_iff_of_not_split 0 _ hlimit hnot hserved,
    exists_sort_iff_of_not_split 0 _ hlimit' hnot' hserved']
  simp only [start, hslice, Pairs.toList_reverse, List.mem_reverse]
  rfl

/-- What a sort leaves of a window that is not split, a sort the other way round leaves, read
backwards, of its pairs read backwards. -/
theorem Run.Sorts.slice_reverse [Std.TransOrd K] {run : Run K V n} {run' : Run K V n'}
    (hlength : length ≤ strategy.radixLimit)
    (h : Sorts strategy 0 ⟨offset, length, fits⟩ (.start pairs scratch) run)
    (h' : Sorts strategy.opposite 0 ⟨offset', length, fits'⟩ (.start pairs' scratch') run')
    (hslice : pairs'.slice ⟨offset', length, fits'⟩
      = (pairs.slice ⟨offset, length, fits⟩).reverse) :
  run'.pairs.slice ⟨offset', length, fits'⟩ = (run.pairs.slice ⟨offset, length, fits⟩).reverse
  := by
  apply Pairs.toList_injective
  rw [Pairs.toList_reverse, h.arranges.toList_slice, h'.arranges.toList_slice]
  apply Eq.trans _ (Pairs.arranged_reverse hlength (pairs.slice ⟨offset, length, fits⟩))
  apply congrArg (Pairs.arranged strategy.opposite) hslice

/-- A sort of a window that is not split does not fail if the one of its pairs read backwards, the
other way round, does not.  If so, then the one exchanges what stands in the window for some pairs,
and the other one for these pairs read backwards. -/
theorem Pairs.sortWindow_reverse [Std.TransOrd K] (hlimit : n < sizeLimit)
    (hlimit' : n' < sizeLimit) (hlength : length ≤ strategy.radixLimit)
    (hserved : strategy.ServedBy length scratch)
    (hserved' : strategy.opposite.ServedBy length scratch')
    (hslice : pairs'.slice ⟨offset', length, fits'⟩
      = (pairs.slice ⟨offset, length, fits⟩).reverse) :
  let ending := pairs.sortWindow strategy ⟨offset, length, fits⟩ scratch
  let ending' := pairs'.sortWindow strategy.opposite ⟨offset', length, fits'⟩ scratch'
  (ending.result = .ok () ↔ ending'.result = .ok ())
    ∧ (ending.result = .ok () → ∃ sorted : Pairs K V length,
      let after := pairs.replace ⟨offset, length, fits⟩ sorted
      let after' := pairs'.replace ⟨offset', length, fits'⟩ sorted.reverse
      ending.keys = after.keys.toArray ∧ ending.values = after.values.toArray
      ∧ ending'.keys = after'.keys.toArray ∧ ending'.values = after'.values.toArray)
  := by
  intro ending ending'
  have hiff : ending.result = .ok () ↔ ending'.result = .ok () := by
    rw [result_sortWindow_iff, result_sortWindow_iff]
    apply Run.exists_sort_reverse_iff hlimit hlimit' hlength hserved hserved' hslice
  refine ⟨hiff, ?_⟩
  intro hresult
  obtain ⟨run, hrun⟩ := result_sortWindow_iff.mp hresult
  obtain ⟨run', hrun'⟩ := result_sortWindow_iff.mp (hiff.mp hresult)
  have hsorts := Run.sort_eq_ok.mp hrun
  have hsorts' := Run.sort_eq_ok.mp hrun'
  have hpairs := hsorts.arranges.pairs_eq_replace
  have hpairs' := hsorts'.arranges.pairs_eq_replace
  rw [hsorts.slice_reverse hlength hsorts' hslice] at hpairs'
  use run.pairs.slice ⟨offset, length, fits⟩
  intro after after'
  rw [show after = run.pairs from hpairs.symm, show after' = run'.pairs from hpairs'.symm]
  simp only [ending, ending', sortWindow, hrun, hrun']
  exact ⟨rfl, rfl, rfl, rfl⟩

/-- The same goes for requests for such windows.  If the checks turn one of them down, then they
turn down the other one for the same reason; and if not, then neither sort fails if all digits can
be read. -/
theorem Pairs.sortWindowWith_reverse [Std.TransOrd K] (hlimit : n < sizeLimit)
    (hlimit' : n' < sizeLimit) (hlength : length ≤ strategy.radixLimit)
    (hcapacity : scratch'.map Scratch.capacity = scratch.map Scratch.capacity)
    (hslice : pairs'.slice ⟨offset', length, fits'⟩
      = (pairs.slice ⟨offset, length, fits⟩).reverse) :
  let ending := sortWindowWith strategy scratch pairs.keys.toArray pairs.values.toArray offset
    length
  let ending' := sortWindowWith strategy.opposite scratch' pairs'.keys.toArray pairs'.values.toArray
    offset' length
  (ending.result = .ok () ↔ ending'.result = .ok ())
    ∧ (∀ [LawfulDigitKey K], ending.result = ending'.result)
    ∧ (ending.result = .ok () → ∃ sorted : Pairs K V length,
      let after := pairs.replace ⟨offset, length, fits⟩ sorted
      let after' := pairs'.replace ⟨offset', length, fits'⟩ sorted.reverse
      ending.keys = after.keys.toArray ∧ ending.values = after.values.toArray
      ∧ ending'.keys = after'.keys.toArray ∧ ending'.values = after'.values.toArray)
  := by
  rw [sortWindowWith_toArray, sortWindowWith_toArray]
  obtain ⟨failure, hgrant, hgrant'⟩ | ⟨hgrant, hgrant'⟩ :=
    grant_reverse strategy hlimit hlimit' hcapacity hslice
  · rw [hgrant, hgrant']
    refine ⟨Iff.rfl, rfl, ?_⟩
    rintro ⟨⟩
  · have hserved : strategy.ServedBy length scratch := served_of_grant hgrant
    obtain ⟨hiff, hsorted⟩ := sortWindow_reverse hlimit hlimit' hlength hserved
      (served_of_grant hgrant') hslice
    rw [hgrant, hgrant']
    refine ⟨hiff, ?_, hsorted⟩
    intro _
    obtain ⟨run, hrun⟩ := Run.exists_sorts hlimit 0 ⟨offset, length, fits⟩ (.start pairs scratch)
      hserved
    have hresult := result_sortWindow_iff.mpr ⟨run, Run.sort_eq_ok.mpr hrun⟩
    apply hresult.trans
    symm
    apply hiff.mp hresult

end

/-- The two directions are mirror images.  Pairs sorted by insertion or by digits into descending
order are the pairs read backwards, sorted into ascending order, read backwards, those of equal keys
included.  So are the pairs in a window that is not split, wherever they stand when they are read
backwards: both sorts come to the same, unless a digit cannot be read that they are done by. -/
theorem descending_mirrors_ascending {K V : Type} [DigitKey K] [Std.TransOrd K] {n : Nat}
    (pairs : Pairs K V n) (hlimit : n < sizeLimit) :
  pairs.insertionSort .descending = (pairs.reverse.insertionSort .ascending).reverse
  ∧ (∀ (span : DigitSpan) (scratchKeys scratchKeys' : Array K)
      (scratchValues scratchValues' : Array V) (columns : Array K × Array V),
    scratchKeys'.size = scratchKeys.size → scratchValues'.size = scratchValues.size →
    (radixSort .descending span pairs.keys.toArray pairs.values.toArray scratchKeys scratchValues
        = .ok columns
      ↔ radixSort .ascending span pairs.keys.toArray.reverse pairs.values.toArray.reverse
          scratchKeys' scratchValues'
        = .ok (columns.1.reverse, columns.2.reverse)))
  ∧ (∀ [LawfulDigitKey K] (span : DigitSpan) (scratchKeys : Array K) (scratchValues : Array V),
    scratchKeys.size = n → scratchValues.size = n →
    ∃ columns, radixSort .descending span pairs.keys.toArray pairs.values.toArray scratchKeys
      scratchValues = .ok columns)
  ∧ ∀ (strategy : Strategy) (scratch scratch' : Option (Scratch K V)) {n' : Nat}
      (pairs' : Pairs K V n') (offset offset' length : Nat) (fits : offset + length ≤ n)
      (fits' : offset' + length ≤ n'),
    n' < sizeLimit → length ≤ strategy.radixLimit →
    scratch'.map Scratch.capacity = scratch.map Scratch.capacity →
    pairs'.slice ⟨offset', length, fits'⟩ = (pairs.slice ⟨offset, length, fits⟩).reverse →
    let ending := sortWindowWith { strategy with direction := .descending } scratch
      pairs.keys.toArray pairs.values.toArray offset length
    let ending' := sortWindowWith { strategy with direction := .ascending } scratch'
      pairs'.keys.toArray pairs'.values.toArray offset' length
    (ending.result = .ok () ↔ ending'.result = .ok ())
    ∧ (∀ [LawfulDigitKey K], ending.result = ending'.result)
    ∧ (ending.result = .ok () → ∃ sorted : Pairs K V length,
      let after := pairs.replace ⟨offset, length, fits⟩ sorted
      let after' := pairs'.replace ⟨offset', length, fits'⟩ sorted.reverse
      ending.keys = after.keys.toArray ∧ ending.values = after.values.toArray
      ∧ ending'.keys = after'.keys.toArray ∧ ending'.values = after'.values.toArray)
  := by
  refine ⟨?_, ?_, ?_, ?_⟩
  · have hreverse := pairs.reverse.insertionSort_reverse .ascending
    rwa [Pairs.reverse_reverse] at hreverse
  · intro span scratchKeys scratchKeys' scratchValues scratchValues' columns hkeys hvalues
    constructor
    · apply pairs.radixSort_reverse hlimit hkeys hvalues
    · intro h
      have hreverse := pairs.reverse.radixSort_reverse hlimit hkeys.symm hvalues.symm h
      rwa [Pairs.reverse_reverse, Array.reverse_reverse, Array.reverse_reverse] at hreverse
  · intro _ span scratchKeys scratchValues hkeys hvalues
    rw [Pairs.radixSort_toArray, dif_pos hkeys, dif_pos hvalues]
    obtain ⟨result, hresult⟩ : ∃ result, RadixState.sort .descending (span.passes K)
        ⟨pairs, ⟨⟨scratchKeys, hkeys⟩, ⟨scratchValues, hvalues⟩⟩⟩ = .ok result :=
      (RadixState.exists_sort_iff hlimit).mpr fun pair _ =>
        hasDigits_of_le span.passes_le_places pair.1
    exact ⟨_, Attempt.within_eq_ok.mpr ⟨result, hresult, rfl⟩⟩
  · intro strategy scratch scratch' n' pairs' offset offset' length fits fits' hlimit' hlength
      hcapacity hslice
    let down : Strategy := { strategy with direction := .descending }
    have hlength' : length ≤ down.radixLimit := hlength
    exact Pairs.sortWindowWith_reverse hlimit hlimit' hlength' hcapacity hslice

/-- Of two equal keys the first one stays first in either direction.  Three pairs in a window behind
another one, and the same read backwards on their own. -/
theorem mirrored_with_equal_keys :
  let pairs : Pairs UInt32 String 4 := ⟨#v[3, 1, 3, 2], #v["a", "b", "c", "d"]⟩
  let descending : Strategy := ⟨.descending, 3, some 2, .full⟩
  let ascending : Strategy := ⟨.ascending, 3, some 2, .full⟩
  (∃ columns, radixSort .descending .low32 pairs.keys.toArray pairs.values.toArray #[0, 0, 0, 0]
      #["", "", "", ""] = .ok columns
    ∧ radixSort .ascending .low32 #[(2 : UInt32), 3, 1, 3] #["d", "c", "b", "a"] #[0, 0, 0, 0]
      #["", "", "", ""] = .ok (columns.1.reverse, columns.2.reverse))
  ∧ ∃ sorted : Pairs UInt32 String 3,
    (sortWindowWith descending none pairs.keys.toArray pairs.values.toArray 1 3).values
      = (pairs.replace ⟨1, 3, by decide⟩ sorted).values.toArray
    ∧ (sortWindowWith ascending none (#[2, 3, 1] : Array UInt32) #["d", "c", "b"] 0 3).values
      = sorted.reverse.values.toArray
  := by
  intro pairs descending ascending
  obtain ⟨-, hradix, hends, hwindows⟩ := descending_mirrors_ascending pairs (by decide)
  constructor
  · have hkeys : pairs.keys.toArray.reverse = #[2, 3, 1, 3] := by decide +kernel
    have hvalues : pairs.values.toArray.reverse = #["d", "c", "b", "a"] := by
      decide +kernel
    obtain ⟨columns, hcolumns⟩ := hends .low32 #[0, 0, 0, 0] #["", "", "", ""] rfl rfl
    refine ⟨columns, hcolumns, ?_⟩
    rw [← hkeys, ← hvalues]
    apply (hradix .low32 _ _ _ _ columns rfl rfl).mp hcolumns
  · let pairs' : Pairs UInt32 String 3 := ⟨#v[2, 3, 1], #v["d", "c", "b"]⟩
    have hslice : pairs'.slice ⟨0, 3, by decide⟩ = (pairs.slice ⟨1, 3, by decide⟩).reverse := by
      decide +kernel
    obtain ⟨-, -, hsorted⟩ := hwindows descending none none pairs' 1 0 3 (by decide) (by decide)
      (by decide) (by decide) rfl hslice
    have hresult : (sortWindowWith descending none pairs.keys.toArray pairs.values.toArray 1
        3).result = .ok () :=
      result_of_passes (by decide) ⟨rfl, by decide, by rintro s ⟨⟩, by decide⟩
    obtain ⟨sorted, -, hvalues, -, hvalues'⟩ := hsorted hresult
    refine ⟨sorted, hvalues, hvalues'.trans ?_⟩
    exact congrArg (fun after => after.values.toArray) (pairs'.replace_whole sorted.reverse)

end LockstepSort
