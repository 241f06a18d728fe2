import LockstepSort.Call
import LockstepSort.Proofs.Sort
import Mathlib.GroupTheory.Perm.Fin

/-!
# Sorts keep the pairs

A sort that does not fail applies one permutation of the positions in its window to both
columns, and leaves the rest of the columns alone.  One that fails leaves them alone
altogether.  So however many sorts are called on two columns, and whatever becomes of them,
the columns hold the same pairs in the end.
-/

namespace LockstepSort

/-! ### Permutations of positions -/

section

variable {α : Type} {sorted range : List α} {length : Nat}

/-- Where two lists are permutations of each other, a permutation of the positions takes the
one to the other. -/
theorem exists_equiv_of_perm (h : sorted.Perm range) (hlength : range.length = length) :
  ∃ s : Equiv.Perm (Fin length), ∀ i : Fin length, sorted[i.val]? = range[(s i).val]?
  := by
  induction h generalizing length with
  | nil => exact ⟨1, fun _ => rfl⟩
  | cons a _ ih =>
      subst hlength
      obtain ⟨s, hs⟩ := ih rfl
      use Equiv.Perm.decomposeFin.symm (0, s)
      intro i
      induction i using Fin.cases with
      | zero => simp
      | succ i => simpa using hs i
  | swap a b list =>
      subst hlength
      use Equiv.swap 0 1
      intro i
      match i with
      | ⟨0, _⟩ => rfl
      | ⟨1, _⟩ => rfl
      | ⟨i + 2, _⟩ => rw [Equiv.swap_apply_of_ne_of_ne] <;> simp [Fin.ext_iff]
  | trans _ h ih ih' =>
      obtain ⟨s, hs⟩ := ih (h.length_eq.trans hlength)
      obtain ⟨s', hs'⟩ := ih' hlength
      use s.trans s'
      intro i
      rw [hs, hs']
      rfl

end

/-! ### One sort -/

/-- One permutation of the positions in a window takes two columns to two others, and takes
nothing from outside the window or to there. -/
structure PermutedIn {K V : Type} (offset length : Nat) (keys : Array K) (values : Array V)
    (keys' : Array K) (values' : Array V) : Prop where
  keys_size : keys'.size = keys.size
  values_size : values'.size = values.size
  inside : ∃ s : Equiv.Perm (Fin length), ∀ i : Fin length,
    keys'[offset + i]? = keys[offset + s i]? ∧ values'[offset + i]? = values[offset + s i]?
  outside (i : Nat) : i < offset ∨ offset + length ≤ i →
    keys'[i]? = keys[i]? ∧ values'[i]? = values[i]?

section

variable {K V : Type} {n : Nat}

theorem Pairs.getElem?_columns
    {pairs pairs' : Pairs K V n} {i j : Nat} (h : pairs.toList[i]? = pairs'.toList[j]?) :
  pairs.keys.toArray[i]? = pairs'.keys.toArray[j]?
    ∧ pairs.values.toArray[i]? = pairs'.values.toArray[j]?
  := by
  have hkeys := congrArg (Option.map Prod.fst) h
  have hvalues := congrArg (Option.map Prod.snd) h
  simp only [← List.getElem?_map, map_fst_toList, map_snd_toList] at hkeys hvalues
  constructor
  · simpa using hkeys
  · simpa using hvalues

variable [DigitKey K] {strategy : Strategy} {scratch : Option (Scratch K V)} {keys : Array K}
  {values : Array V} {offset length : Nat}

/-- Sorting a window permutes its pairs. -/
theorem Passes.permutedIn
    (h : Passes strategy scratch keys values offset length) {run : Run K V keys.size}
    (hrun : Run.Sorts strategy 0 h.window (Run.start h.pairs scratch) run) :
  PermutedIn offset length keys values run.pairs.keys.toArray run.pairs.values.toArray
  := by
  obtain ⟨before, behind, hbefore, hlist, hlist'⟩ := h.exists_toList hrun
  have hrange : (h.pairs.slice h.window).toList.length = length := Pairs.length_toList _
  have hsorted : ((h.pairs.slice h.window).arranged strategy).length = length :=
    Pairs.length_arranged _ _
  refine ⟨?_, ?_, ?_, ?_⟩
  · apply run.pairs.keys.size_toArray
  · apply run.pairs.values.size_toArray.trans h.paired
  · obtain ⟨s, hs⟩ := exists_equiv_of_perm
      (Pairs.arranged_perm strategy (h.pairs.slice h.window)) hrange
    use s
    intro i
    have hget : run.pairs.toList[offset + i]? = h.pairs.toList[offset + s i]? := by
      rw [hlist, hlist', getElem?_inside hbefore hsorted i.isLt,
        getElem?_inside hbefore hrange (s i).isLt]
      apply hs
    apply Pairs.getElem?_columns hget
  · intro i hi
    have hget : run.pairs.toList[i]? = h.pairs.toList[i]? := by
      rw [hlist, hlist']
      apply getElem?_outside hbefore hrange hsorted hi
    apply Pairs.getElem?_columns hget

end

/-! ### Sorts one after the other -/

/-- Two columns hold the same pairs as two others, each as often. -/
structure SamePairs {K V : Type} (keys : Array K) (values : Array V) (keys' : Array K)
    (values' : Array V) : Prop where
  keys_size : keys'.size = keys.size
  values_size : values'.size = values.size
  perm : (keys'.toList.zip values'.toList).Perm (keys.toList.zip values.toList)

section

variable {K V : Type} {keys keys' keys'' : Array K} {values values' values'' : Array V}

theorem SamePairs.refl (keys : Array K) (values : Array V) :
  SamePairs keys values keys values
  := ⟨rfl, rfl, List.Perm.refl _⟩

theorem SamePairs.trans
    (h : SamePairs keys values keys' values') (h' : SamePairs keys' values' keys'' values'') :
  SamePairs keys values keys'' values''
  where
  keys_size := h'.keys_size.trans h.keys_size
  values_size := h'.values_size.trans h.values_size
  perm := h'.perm.trans h.perm

variable [DigitKey K] {strategy : Strategy} {scratch : Option (Scratch K V)}
  {offset length : Nat}

theorem Passes.samePairs
    (h : Passes strategy scratch keys values offset length) {run : Run K V keys.size}
    (hrun : Run.Sorts strategy 0 h.window (Run.start h.pairs scratch) run) :
  SamePairs keys values run.pairs.keys.toArray run.pairs.values.toArray
  where
  keys_size := run.pairs.keys.size_toArray
  values_size := run.pairs.values.size_toArray.trans h.paired
  perm := by
    obtain ⟨before, behind, -, hlist, hlist'⟩ := h.exists_toList hrun
    have hperm : run.pairs.toList.Perm h.pairs.toList := by
      rw [hlist, hlist']
      apply List.Perm.append_right
      apply List.Perm.append_left
      apply Pairs.arranged_perm
    exact hperm

variable [LawfulDigitKey K]

theorem sortWindowWith_samePairs (hlimit : keys.size < sizeLimit) (strategy : Strategy)
    (scratch : Option (Scratch K V)) (values : Array V) (offset length : Nat) :
  let ending := sortWindowWith strategy scratch keys values offset length
  SamePairs keys values ending.keys ending.values
  := by
  intro ending
  cases hresult : ending.result with
  | error failure =>
      have hending := sortWindowWith_of_error ((result_eq_error hlimit).mp hresult)
      rw [show ending = _ from hending]
      apply SamePairs.refl
  | ok =>
      obtain ⟨hpasses, run, hrun, hending⟩ := exists_sorts_of_result hresult
      rw [show ending = _ from hending]
      apply hpasses.samePairs hrun

theorem radixSort_samePairs (hlimit : keys.size < sizeLimit) (direction : Direction)
    (span : DigitSpan) (values : Array V) (scratchKeys : Array K) (scratchValues : Array V) :
  let columns :=
    Attempt.state (radixSort direction span keys values scratchKeys scratchValues)
  SamePairs keys values columns.1 columns.2
  := by
  by_cases h : values.size = keys.size ∧ scratchKeys.size = keys.size
      ∧ scratchValues.size = keys.size
  · obtain ⟨hvalues, hscratchKeys, hscratchValues⟩ := h
    obtain ⟨sorted, hsorted, htoList⟩ :=
      exists_radixSort hlimit hvalues hscratchKeys hscratchValues direction span
    rw [hsorted]
    refine ⟨sorted.keys.size_toArray, sorted.values.size_toArray.trans hvalues.symm, ?_⟩
    have hperm : sorted.toList.Perm (keys.toList.zip values.toList) := by
      rw [htoList]
      apply Direction.stableSort_perm
    exact hperm
  · obtain ⟨column, actual, hrefused⟩ := radixSort_of_unequal h
    rw [hrefused]
    apply SamePairs.refl

/-- No call of a sort loses a pair or makes one up, whether or not it fails. -/
theorem Call.samePairs (hlimit : keys.size < sizeLimit) (call : Call K V) (values : Array V) :
  SamePairs keys values (call.ending keys values).keys (call.ending keys values).values
  := by
  cases call with
  | radixSort => apply radixSort_samePairs hlimit
  | _ => apply sortWindowWith_samePairs hlimit

/-- No matter which sorts are called one after the other, the pairs stay the same. -/
theorem Call.columnsAfter_samePairs
    (hlimit : keys.size < sizeLimit) (values : Array V) (calls : List (Call K V)) :
  SamePairs keys values (Call.columnsAfter keys values calls).1
    (Call.columnsAfter keys values calls).2
  := by
  induction calls generalizing keys values with
  | nil => apply SamePairs.refl
  | cons call calls ih =>
      have hcall := call.samePairs hlimit values
      apply hcall.trans
      apply ih
      rw [hcall.keys_size]
      apply hlimit

end

/-- A sort that does not fail applies one permutation of the positions in its window to both
columns.  Whatever sorts are called on two columns one after the other, whether or not they
fail, the columns hold the same pairs in the end. -/
theorem sorts_permute_pairs {K V : Type} [DigitKey K] (keys : Array K) (values : Array V) :
  (∀ (strategy : Strategy) (scratch : Option (Scratch K V)) (offset length : Nat),
    let ending := sortWindowWith strategy scratch keys values offset length
    ending.result = .ok () → keys.size = values.size ∧ offset + length ≤ keys.size
      ∧ PermutedIn offset length keys values ending.keys ending.values)
  ∧ (∀ [LawfulDigitKey K] (calls : List (Call K V)), keys.size < sizeLimit →
    let columns := Call.columnsAfter keys values calls
    SamePairs keys values columns.1 columns.2)
  := by
  constructor
  · intro strategy scratch offset length ending hresult
    obtain ⟨hpasses, run, hrun, hending⟩ := exists_sorts_of_result hresult
    refine ⟨hpasses.paired, hpasses.fits, ?_⟩
    rw [show ending = _ from hending]
    apply hpasses.permutedIn hrun
  · intro _ calls hlimit columns
    apply Call.columnsAfter_samePairs hlimit

/-- Of three calls the first is carried out, the second refuses a negative key, and the third
refuses a window that leaves the columns. -/
theorem pairs_kept_by_failing_calls :
  (∃ s : Equiv.Perm (Fin 2), ∀ i : Fin 2,
    (sortWindow (#[3, -1, 2, 1] : Array Int32) #["a", "b", "c", "d"] 2 2).keys[2 + i.val]?
      = (#[3, -1, 2, 1] : Array Int32)[2 + (s i).val]?)
    ∧ let columns := Call.columnsAfter (#[3, -1, 2, 1] : Array Int32) #["a", "b", "c", "d"]
        [.sortWindow 2 2, .sort, .sortWindow 3 2]
      (columns.1.toList.zip columns.2.toList).Perm
        [(3, "a"), (-1, "b"), (2, "c"), (1, "d")]
  := by
  have hlimit : (#[3, -1, 2, 1] : Array Int32).size < sizeLimit := by decide
  obtain ⟨hone, hall⟩ := sorts_permute_pairs (#[3, -1, 2, 1] : Array Int32)
    #["a", "b", "c", "d"]
  constructor
  · have hpasses : Passes (.forKeys Int32 .ascending) none (#[3, -1, 2, 1] : Array Int32)
        #["a", "b", "c", "d"] 2 2 :=
      ⟨rfl, by decide, by rintro s ⟨⟩, by decide⟩
    obtain ⟨-, -, hpermuted⟩ := hone (.forKeys Int32 .ascending) none 2 2
      (result_of_passes hlimit hpasses)
    obtain ⟨s, hs⟩ := hpermuted.inside
    use s
    intro i
    apply (hs i).1
  · apply (hall [.sortWindow 2 2, .sort, .sortWindow 3 2] hlimit).perm

end LockstepSort
