import LockstepSort.Proofs.Sort
import LockstepSort.Proofs.Tiling

/-!
# Refused scratch

Scratch is refused when it does not serve a range of the length that is required.  Equal keys are
split worst, with all pairs behind the pivot, so sorting them comes down to a range of just this
length.  Whether that range is sorted by digits is another matter: it is not if it is a single
pair, nor if it is short enough to be sorted by insertion.  Then no range is, and scratch is
refused that would not have been used.
-/

namespace LockstepSort

/-- Some pairs, of which no key is negative, are sorted without scratch in such a way that a range
of `range` of them is sorted by digits. -/
def Strategy.Distributes (K V : Type) [DigitKey K] (strategy : Strategy) (length range : Nat) :
    Prop :=
  ∃ pairs : Pairs K V length, (∀ key ∈ pairs.keys.toList, ¬ DigitKey.isNegative key)
    ∧ ∃ run, (Run.start pairs none).sort strategy 0 (.whole length) = .ok run
      ∧ ∃ visit ∈ run.visits, visit.outcome = .distributed ∧ visit.window.length = range

section

variable {K V : Type} [DigitKey K] {n length range : Nat} {strategy : Strategy}
  {pairs : Pairs K V n} {w : Window n} {visits : List (Visit n)}

/-- Where no key precedes another one, a range is sorted by digits that is as long as they come, if
ranges of that length are. -/
theorem Tiling.exists_distributed (h : Tiling strategy pairs w visits)
    (htied : (pairs.slice w).Tied strategy.direction)
    (haction : strategy.action (min w.length strategy.radixLimit) = .radix) :
  ∃ visit ∈ visits, visit.outcome = .distributed
    ∧ visit.window.length = min w.length strategy.radixLimit
  := by
  obtain ⟨hone, -, hinserts⟩ := Strategy.action_eq_radix_iff.mp haction
  induction h with
  | @leaf visit hstands hleaf =>
      have hobeys := Visit.obeys_of_action hstands.action
      have hlimit : visit.window.length ≤ strategy.radixLimit := by
        by_contra hlonger
        obtain ⟨pivot, hpivot⟩ := hobeys.split.mpr (by omega)
        apply hleaf pivot hpivot
      rw [Nat.min_eq_left hlimit] at hone hinserts ⊢
      refine ⟨visit, List.mem_singleton_self _, ?_, rfl⟩
      apply hobeys.distributed.mpr
      exact ⟨hone, hlimit, Strategy.not_insertsAt_iff.mp hinserts⟩
  | @split depth w pivot visits front back hstands _ _ hvisits _ ihback =>
      obtain ⟨_, hparted⟩ := hstands.split pivot rfl
      have hpivot := htied.pivot_eq_zero hparted
      have hsplit := Strategy.action_eq_split_iff.mp hstands.action.symm
      -- All pairs but the pivot are behind it, and these are still too many to be sorted at once.
      have hlength : min (w.after pivot).length strategy.radixLimit
          = min w.length strategy.radixLimit := by
        simp only [Window.after] at hpivot hsplit ⊢
        omega
      have hbehind := htied.of_subset ((w.after_within pivot).slice_subset pairs)
      rw [← hlength] at haction hone hinserts ⊢
      obtain ⟨visit, hvisit, hdistributed⟩ := ihback hbehind haction hone hinserts
      refine ⟨visit, ?_, hdistributed⟩
      rw [hvisits.mem_iff]
      simp [hvisit]

/-- A range that is sorted by digits is one that a strategy sorts by digits, and no longer than
what is required. -/
theorem Strategy.Distributes.action [Std.TransOrd K] (h : strategy.Distributes K V length range) :
  strategy.action range = .radix ∧ range ≤ strategy.scratchRequired length
  := by
  obtain ⟨pairs, -, run, hrun, visit, hvisit, houtcome, rfl⟩ := h
  obtain ⟨visits, hvisits, htiling⟩ := (Run.sort_eq_ok.mp hrun).exists_tiling
  have hmem : visit ∈ visits := by
    have hmem := Array.mem_toList_iff.mpr hvisit
    rw [hvisits] at hmem
    simpa [Run.start] using hmem
  constructor
  · rw [← (htiling.stands hmem).action, houtcome]
    rfl
  · apply htiling.le_scratchRequired hmem houtcome

/-- Equal keys are sorted by digits in a range as long as ranges come, if ranges of that length
are sorted by digits. -/
theorem Strategy.distributes_of_action [Std.TransOrd K] [LawfulDigitKey K] [Nonempty V] {key : K}
    (hlimit : length < sizeLimit) (hsign : ¬ DigitKey.isNegative key)
    (haction : strategy.action (min length strategy.radixLimit) = .radix) :
  strategy.Distributes K V length (min length strategy.radixLimit)
  := by
  obtain ⟨value⟩ := ‹Nonempty V›
  let pairs : Pairs K V length := ⟨Vector.replicate length key, Vector.replicate length value⟩
  have hserved : strategy.ServedBy (Window.whole length).length (none : Option (Scratch K V)) := by
    rintro s ⟨⟩
  obtain ⟨run, hrun⟩ := Run.exists_sorts hlimit 0 (.whole length) (.start pairs none) hserved
  obtain ⟨visits, hvisits, htiling⟩ := hrun.exists_tiling
  have hkey {a : K × V} (ha : a ∈ (run.pairs.slice (.whole length)).toList) : a.1 = key := by
    rw [hrun.arranges.toList_slice, (Pairs.arranged_perm _ _).mem_iff, Pairs.toList_slice] at ha
    have hmem := List.mem_map_of_mem (f := Prod.fst)
      (List.mem_of_mem_drop (List.mem_of_mem_take ha))
    rw [Pairs.map_fst_toList] at hmem
    obtain ⟨-, hkey⟩ : length ≠ 0 ∧ a.1 = key := by simpa [pairs, Run.start] using hmem
    apply hkey
  have htied : (run.pairs.slice (.whole length)).Tied strategy.direction := by
    intro a ha b hb
    rw [hkey ha, hkey hb]
    apply Direction.not_precedes_self
  obtain ⟨visit, hvisit, hdistributed⟩ := htiling.exists_distributed htied haction
  refine ⟨pairs, ?_, run, Run.sort_eq_ok.mpr hrun, visit, ?_, hdistributed⟩
  · intro key' hkey'
    obtain ⟨-, rfl⟩ : length ≠ 0 ∧ key' = key := by simpa [pairs] using hkey'
    apply hsign
  · rw [← Array.mem_toList_iff, hvisits]
    apply List.mem_append_right _ hvisit

theorem Strategy.scratchRequired_of_pos (h : 0 < strategy.scratchRequired length) :
  1 < length ∧ strategy.scratchRequired length = min length strategy.radixLimit
  := by
  unfold scratchRequired at h ⊢
  split at h
  next => contradiction
  next hcase =>
      rw [if_neg hcase]
      simp only [not_or] at hcase
      omega

variable {scratch : Option (Scratch K V)} {keys : Array K} {values : Array V}
  {offset required capacity : Nat} [LawfulDigitKey K]

/-- Only a sort of a window of columns that pair up is refused for lack of scratch. -/
theorem exists_of_refused (hlimit : keys.size < sizeLimit)
    (hrefused : (sortWindowWith strategy scratch keys values offset length).result
      = .error (.rejected (.scratchTooSmall required capacity))) :
  keys.size = values.size ∧ offset + length ≤ keys.size
    ∧ (∃ s ∈ scratch, s.capacity = capacity) ∧ capacity < required
    ∧ required = strategy.scratchRequired length
  := by
  obtain ⟨-, ⟨⟩⟩ | ⟨-, -, ⟨⟩⟩ | ⟨hpaired, hfits, hserved, s, hs, ⟨⟩⟩ | ⟨-, -, -, -, ⟨⟩⟩ :=
    (checked_eq_error hlimit).mp ((result_eq_error hlimit).mp hrefused)
  obtain ⟨_, rfl, hsmall⟩ := Strategy.exists_of_not_servedBy hserved
  obtain rfl := Option.some.inj hs
  exact ⟨hpaired, hfits, ⟨_, rfl, rfl⟩, hsmall, rfl⟩

/-- Scratch is refused that does not serve the longest range that is sorted by digits in the worst
case, if any range is.  A range of the length that is required is sorted by digits in some window
of the length exactly if it is longer than a single pair and than what is sorted by insertion;
otherwise no range is in any of them. -/
theorem refused_scratch_needed_iff [Std.TransOrd K] (hlimit : keys.size < sizeLimit)
    (hkey : ∃ key : K, ¬ DigitKey.isNegative key)
    (hrefused : (sortWindowWith strategy scratch keys values offset length).result
      = .error (.rejected (.scratchTooSmall required capacity))) :
  (∃ s ∈ scratch, s.capacity = capacity) ∧ capacity < required
  ∧ required = strategy.scratchRequired length
  ∧ (∀ range, strategy.Distributes K V length range → range ≤ required)
  ∧ (strategy.Distributes K V length required
    ↔ 2 ≤ required ∧ ∀ limit, strategy.insertionLimit = some limit → limit < required)
  ∧ (¬ strategy.Distributes K V length required →
    ∀ range, ¬ strategy.Distributes K V length range)
  := by
  obtain ⟨hpaired, hfits, hcapacity, hsmall, hrequired⟩ := exists_of_refused hlimit hrefused
  have hpos : 0 < strategy.scratchRequired length := by omega
  obtain ⟨hlength, hmin⟩ := Strategy.scratchRequired_of_pos hpos
  obtain ⟨key, hsign⟩ := hkey
  have hvalue : Nonempty V := ⟨values[0]⟩
  have hle (range : Nat) (h : strategy.Distributes K V length range) : range ≤ required := by
    rw [hrequired]
    apply h.action.2
  have haction : strategy.Distributes K V length required ↔ strategy.action required = .radix := by
    constructor
    · intro h
      apply h.action.1
    · intro h
      rw [hrequired, hmin] at h ⊢
      apply Strategy.distributes_of_action (by omega) hsign h
  refine ⟨hcapacity, hsmall, hrequired, hle, ?_, ?_⟩
  · rw [haction, Strategy.action_eq_radix_iff, Strategy.not_insertsAt_iff]
    constructor
    · rintro ⟨hone, -, hinserts⟩
      exact ⟨hone, hinserts⟩
    · rintro ⟨hone, hinserts⟩
      refine ⟨hone, ?_, hinserts⟩
      omega
  · intro hnot range h
    obtain ⟨hone, hlimit, hinserts⟩ := Strategy.action_eq_radix_iff.mp h.action.1
    apply hnot
    apply haction.mpr
    apply Strategy.action_eq_radix_iff.mpr
    refine ⟨?_, ?_, ?_⟩
    · have := hle range h
      omega
    · omega
    · intro hinserts'
      apply hinserts (Strategy.insertsAt_of_le (hle range h) hinserts')

end

/-- Scratch for two pairs is refused for a window of five that may come down to three. -/
theorem refused_scratch_needed_for_three :
  let strategy : Strategy := ⟨.descending, 3, some 2, .low32⟩
  let keys : Array Int32 := #[4, 1, 3, 1, 5]
  let values := #["a", "b", "c", "d", "e"]
  let ending := sortWindowWith strategy (some ⟨#[0, 0], #["", ""]⟩) keys values 0 5
  ending.result = .error (.rejected (.scratchTooSmall 3 2))
    ∧ strategy.Distributes Int32 String 5 3
  := by
  intro strategy keys values ending
  have hrefused : ending.result = .error (.rejected (.scratchTooSmall 3 2)) := rfl
  obtain ⟨-, -, -, -, hneeded, -⟩ := refused_scratch_needed_iff (by decide) ⟨0, by decide⟩ hrefused
  refine ⟨hrefused, hneeded.mpr ⟨by decide, ?_⟩⟩
  rintro limit ⟨⟩
  decide

/-- Where only single pairs are not split, or all ranges that are not split are sorted by insertion,
no range is sorted by digits; still, scratch is refused that serves no range. -/
theorem scratch_refused_in_vain :
  let splitting : Strategy := ⟨.ascending, 1, none, .low32⟩
  let inserting : Strategy := ⟨.ascending, 2, some 2, .low32⟩
  (sortWindowWith splitting (some .empty) (#[2, 1] : Array UInt32) #["a", "b"] 0 2).result
      = .error (.rejected (.scratchTooSmall 1 0))
    ∧ ¬ splitting.Distributes UInt32 String 2 1
    ∧ (sortWindowWith inserting (some .empty) (#[3, 2, 1] : Array UInt32) #["a", "b", "c"] 0
        3).result
      = .error (.rejected (.scratchTooSmall 2 0))
    ∧ ¬ inserting.Distributes UInt32 String 3 2
  := by
  refine ⟨rfl, ?_, rfl, ?_⟩
  · intro h
    have haction := h.action.1
    contradiction
  · intro h
    have haction := h.action.1
    contradiction

end LockstepSort
