import LockstepSort.Proofs.Likeness.Pairs
import LockstepSort.Proofs.Recursion
import LockstepSort.Proofs.Sort

/-!
# The trace of a run

A window is split before anything in it is sorted, and what is sorted in one side of a pivot does
not reach the other side.  So the splits of a run, in their order, follow from the pairs that stood
in its window: `Pairs.trace` computes them without sorting anything.  It only compares keys, and
asks the strategy for nothing but the direction and the length from which on windows are split.
-/

namespace LockstepSort

/-! ### The trace of pairs -/

namespace Pairs

section

variable {K V : Type} [DigitKey K] {n : Nat} {strategy : Strategy} {pairs : Pairs K V n}

/-- The splits that are done to sort pairs, in their order: those of the shorter side of a pivot
come first, or those behind it if both sides are equally long. -/
def trace (strategy : Strategy) {n : Nat} (pairs : Pairs K V n) : List Event :=
  match h : strategy.action n with
  | .split =>
    let (parted, pivot) := pairs.partition strategy.direction
      (Nat.lt_of_succ_lt (Strategy.one_lt_of_action_split h))
    let before := (parted.front pivot).trace strategy
    let behind := (parted.back pivot).trace strategy
    .split n pivot :: if pivot < n - pivot - 1 then before ++ behind else behind ++ before
  | _ => []
termination_by n

theorem trace_of_not_split (h : strategy.action n ≠ .split) :
  pairs.trace strategy = []
  := by
  rw [trace]
  split
  next hsplit => apply absurd hsplit h
  next => rfl

theorem trace_of_split {parted : Pairs K V n} {pivot : Fin n} {nonempty : 0 < n}
    (h : strategy.action n = .split)
    (hparted : pairs.partition strategy.direction nonempty = (parted, pivot)) :
  pairs.trace strategy
    = .split n pivot :: if pivot.val < n - pivot - 1 then
        (parted.front pivot).trace strategy ++ (parted.back pivot).trace strategy
      else (parted.back pivot).trace strategy ++ (parted.front pivot).trace strategy
  := by
  rw [trace]
  split
  next => rw [hparted]
  next hsplit => apply absurd h hsplit

/-- The trace is the splits in one of their orders. -/
theorem trace_perm_splits (strategy : Strategy) (pairs : Pairs K V n) :
  (pairs.trace strategy).Perm (pairs.splits strategy)
  := by
  induction n, pairs using trace.induct (K := K) strategy with
  | case1 n pairs haction parted pivot hparted ihfront ihback =>
      rw [trace_of_split haction hparted, splits_of_split haction hparted]
      apply List.Perm.cons
      split
      · apply ihfront.append ihback
      · apply List.perm_append_comm.trans
        apply ihfront.append ihback
  | case2 n pairs haction => rw [trace_of_not_split haction, splits_of_not_split haction]

end

section

variable {K K' V V' : Type} [DigitKey K] [DigitKey K'] {n : Nat} {strategy strategy' : Strategy}
  {P : K × V → K' × V' → Prop} {pairs : Pairs K V n} {pairs' : Pairs K' V' n}

/-- Like pairs have the same trace under strategies of one direction that split windows from the
same length on. -/
theorem Like.trace (hP : Likeness P) (h : pairs.Like P pairs')
    (hdirection : strategy'.direction = strategy.direction)
    (hlimit : strategy'.radixLimit = strategy.radixLimit) :
  pairs'.trace strategy' = pairs.trace strategy
  := by
  have hsplit (length : Nat) :
      strategy'.action length = .split ↔ strategy.action length = .split := by
    rw [Strategy.action_eq_split_iff, Strategy.action_eq_split_iff, hlimit]
  induction n, pairs using trace.induct (K := K) strategy with
  | case1 n pairs haction parted pivot hparted ihfront ihback =>
      obtain ⟨parted', hparted', hparts⟩ := h.partition hP hparted
      rw [← hdirection] at hparted'
      have hfront : (parted'.front pivot).trace strategy' = (parted.front pivot).trace strategy :=
        ihfront (hparts.slice _)
      have hback : (parted'.back pivot).trace strategy' = (parted.back pivot).trace strategy :=
        ihback (hparts.slice _)
      rw [trace_of_split haction hparted, trace_of_split ((hsplit n).mpr haction) hparted', hfront,
        hback]
  | case2 n pairs haction =>
      rw [trace_of_not_split haction, trace_of_not_split (mt (hsplit n).mp haction)]

end

end Pairs

/-! ### The trace of a run -/

namespace Run

variable {K V : Type} [DigitKey K] {n : Nat} {strategy : Strategy} {depth : Nat} {w : Window n}
  {run run' parted : Run K V n}

/-- The trace of the pairs in a window is that of its two sides, in the order in which a run sorts
them, behind the split itself. -/
theorem trace_split {nonempty : 0 < w.length} {pivot : Fin w.length}
    (haction : strategy.action w.length = .split)
    (hparted : run.split strategy depth w nonempty = (parted, pivot)) :
  (run.pairs.slice w).trace strategy
    = .split w.length pivot :: ((parted.pairs.slice (w.shorter pivot)).trace strategy
        ++ (parted.pairs.slice (w.longer pivot)).trace strategy)
  := by
  obtain ⟨sides, hsides, hbefore, hafter⟩ := split_sides hparted
  have hfront : (parted.pairs.slice (w.before pivot)).trace strategy
      = (sides.front pivot).trace strategy := congrArg (Pairs.trace strategy) hbefore
  have hback : (parted.pairs.slice (w.after pivot)).trace strategy
      = (sides.back pivot).trace strategy := congrArg (Pairs.trace strategy) hafter
  rw [Pairs.trace_of_split haction hsides]
  by_cases hlt : pivot.val < w.length - pivot - 1
  · obtain ⟨hshorter, hlonger⟩ := w.shorter_longer_of_lt hlt
    rw [if_pos hlt, hshorter, hlonger, hfront, hback]
  · obtain ⟨hshorter, hlonger⟩ := w.shorter_longer_of_not_lt hlt
    rw [if_neg hlt, hshorter, hlonger, hfront, hback]

/-- A run writes down the trace of the pairs in its window. -/
theorem Sorts.events_eq (h : Sorts strategy depth w run run') :
  run'.events.toList = run.events.toList ++ (run.pairs.slice w).trace strategy
  := by
  have hleaf {depth : Nat} {w : Window n} {run run' : Run K V n}
      (h : Sorts strategy depth w run run') (haction : strategy.action w.length ≠ .split) :
      run'.events.toList = run.events.toList ++ (run.pairs.slice w).trace strategy := by
    rw [Pairs.trace_of_not_split haction, List.append_nil, h.events_of_not_split haction]
  induction h with
  | leave haction => apply hleaf (.leave haction) (by simp [haction])
  | insertion haction => apply hleaf (.insertion haction) (by simp [haction])
  | radix haction hsorted => apply hleaf (.radix haction hsorted) (by simp [haction])
  | @split depth w run parted middle run' nonempty pivot haction hparted hshorter _ ihshorter
      ihlonger =>
      -- What the nested call sorts does not reach the side that the call goes on with.
      have hslice := hshorter.arranges.slice_eq_of_disjoint (w.shorter_longer_disjoint pivot).symm
      rw [ihlonger, ihshorter, hslice, events_split hparted, trace_split haction hparted]
      simp

/-- A run that is broken off has written down the first lines of the trace, and at least one of them
if there are any. -/
theorem exists_written (strategy : Strategy) (depth : Nat) (w : Window n) (run : Run K V n) :
  ∃ written rest, (Attempt.state (run.sort strategy depth w)).events.toList
      = run.events.toList ++ written
    ∧ (run.pairs.slice w).trace strategy = written ++ rest ∧ (written = [] → rest = [])
  := by
  induction depth, w, run using sort.induct (K := K) strategy with
  | case1 depth w run haction | case2 depth w run haction | case3 depth w run haction =>
      have hnot : strategy.action w.length ≠ .split := by simp [haction]
      refine ⟨[], [], ?_, Pairs.trace_of_not_split hnot, fun h => h⟩
      rw [run.events_sort_of_not_split depth hnot, List.append_nil]
  | case4 depth w run haction nonempty parted pivot hparted ihshorter ihlonger =>
      rw [sort_of_split haction hparted, trace_split haction hparted]
      cases hmiddle : parted.sort strategy (depth + 1) (w.shorter pivot) with
      | error breakdown =>
          obtain ⟨written, rest, hwritten, htrace, -⟩ := ihshorter
          rw [hmiddle, events_split hparted] at hwritten
          refine ⟨.split w.length pivot :: written,
            rest ++ (parted.pairs.slice (w.longer pivot)).trace strategy, ?_, ?_, ?_⟩
          · apply hwritten.trans
            simp
          · rw [htrace]
            simp
          · intro hnil
            apply absurd hnil (List.cons_ne_nil _ _)
      | ok middle =>
          obtain ⟨written, rest, hwritten, htrace, -⟩ := ihlonger middle
          have hsorts := sort_eq_ok.mp hmiddle
          have hslice := hsorts.arranges.slice_eq_of_disjoint
            (w.shorter_longer_disjoint pivot).symm
          rw [hsorts.events_eq, events_split hparted] at hwritten
          refine ⟨.split w.length pivot
            :: ((parted.pairs.slice (w.shorter pivot)).trace strategy ++ written), rest, ?_, ?_, ?_⟩
          · apply hwritten.trans
            simp
          · rw [← hslice, htrace]
            simp
          · intro hnil
            apply absurd hnil (List.cons_ne_nil _ _)

end Run

/-! ### The trace of a sort -/

/-- The lines on splits in the log of a sort. -/
def Ending.trace {K V : Type} (ending : Ending K V) : List Event :=
  ending.log.toList.filter fun event => event.level = .trace

/-- All that a run writes down is about splits. -/
theorem Run.filter_events {K V : Type} {n : Nat} (run : Run K V n) :
  run.events.toList.filter (fun event => event.level = .trace) = run.events.toList
  := by
  apply List.filter_eq_self.mpr
  intro event hevent
  rw [Run.events, Array.toList_filterMap, List.mem_filterMap] at hevent
  obtain ⟨visit, -, hevent⟩ := hevent
  unfold Visit.event? at hevent
  split at hevent
  next =>
      obtain rfl := Option.some.inj hevent
      rfl
  next => contradiction

section

variable {K V : Type} [DigitKey K] {strategy : Strategy} {scratch : Option (Scratch K V)}
  {keys : Array K} {values : Array V} {offset length : Nat}

/-- The trace of a sort is all that its run has written down, even if it was broken off. -/
theorem Pairs.trace_sortWindow {n : Nat} (strategy : Strategy) (w : Window n)
    (scratch : Option (Scratch K V)) (pairs : Pairs K V n) :
  (pairs.sortWindow strategy w scratch).trace
    = (Attempt.state ((Run.start pairs scratch).sort strategy 0 w)).events.toList
  := by
  simp only [Ending.trace, sortWindow, Array.toList_append, List.filter_append, Run.filter_events]
  rfl

/-- The trace of a sort that does not fail is that of the pairs in its window. -/
theorem trace_of_result
    (h : (sortWindowWith strategy scratch keys values offset length).result = .ok ()) :
  ∃ hpasses : Passes strategy scratch keys values offset length,
    (sortWindowWith strategy scratch keys values offset length).trace
      = hpasses.range.trace strategy
  := by
  obtain ⟨hpasses, run, hrun, hending⟩ := exists_sorts_of_result h
  use hpasses
  rw [hending, Ending.trace, Array.toList_append, List.filter_append, run.filter_events,
    hrun.events_eq]
  rfl

end

section

variable {K V V' : Type} [DigitKey K]

/-- Pairs of one key are alike, whatever their values are. -/
theorem Likeness.sameKey : Likeness fun (a : K × V) (a' : K × V') => a'.1 = a.1
  where
  bits := rfl
  compare ha hb := by rw [ha, hb]
  digit ha place _ := by rw [ha]
  isNegative ha := by rw [ha]

/-- The trace of a sort depends on the keys in its window, on the direction and on the length from
which on windows are split, and on nothing else: not on the values, on what stands around the
window or where that lies, on how windows are sorted that are not split, or on the scratch. -/
theorem trace_decided_by_keys {strategy strategy' : Strategy} {scratch : Option (Scratch K V)}
    {scratch' : Option (Scratch K V')} {keys keys' : Array K} {values : Array V}
    {values' : Array V'} {offset offset' length length' : Nat}
    (hkeys : stretch keys' offset' length' = stretch keys offset length)
    (hdirection : strategy'.direction = strategy.direction)
    (hlimit : strategy'.radixLimit = strategy.radixLimit)
    (hresult : (sortWindowWith strategy scratch keys values offset length).result = .ok ())
    (hresult' : (sortWindowWith strategy' scratch' keys' values' offset' length').result
      = .ok ()) :
  (sortWindowWith strategy' scratch' keys' values' offset' length').trace
    = (sortWindowWith strategy scratch keys values offset length).trace
  := by
  obtain ⟨hpasses, htrace⟩ := trace_of_result hresult
  obtain ⟨hpasses', htrace'⟩ := trace_of_result hresult'
  rw [← hpasses.toList_keys_range, ← hpasses'.toList_keys_range] at hkeys
  obtain rfl : length' = length := by simpa using congrArg List.length hkeys
  have hcolumn : hpasses'.range.keys = hpasses.range.keys := Vector.toList_inj.mp hkeys
  have hlike : hpasses.range.Like (fun a a' => a'.1 = a.1) hpasses'.range := by
    intro i
    exact congrArg (Vector.get · i) hcolumn
  rw [htrace, htrace']
  apply hlike.trace Likeness.sameKey hdirection hlimit

/-- Five keys are split in the same order, whether the shorter windows are sorted by digits or by
insertion, and whatever the values are. -/
theorem trace_of_five_keys :
  let distributing : Strategy := ⟨.descending, 1, none, .low32⟩
  let inserting : Strategy := ⟨.descending, 1, some 7, .full⟩
  let ending := sortWindowWith distributing none (#[3, 1, 4, 1, 5] : Array UInt32)
    #["a", "b", "c", "d", "e"] 0 5
  let moved := sortWindowWith inserting (some ⟨#[0], #[0]⟩) (#[9, 3, 1, 4, 1, 5, 7] : Array UInt32)
    #[10, 20, 30, 40, 50, 60, 70] 1 5
  moved.trace = ending.trace ∧ ending.trace = [.split 5 1, .split 3 1]
  := by
  intro distributing inserting ending moved
  have hkeys : stretch (#[9, 3, 1, 4, 1, 5, 7] : Array UInt32) 1 5
      = stretch (#[3, 1, 4, 1, 5] : Array UInt32) 0 5 := by decide
  have hdirection : inserting.direction = distributing.direction := rfl
  have hlimit : inserting.radixLimit = distributing.radixLimit := rfl
  have hresult : ending.result = .ok () :=
    result_of_passes (by decide) ⟨rfl, by decide, by rintro s ⟨⟩, by decide⟩
  have hresult' : moved.result = .ok () :=
    result_of_passes (by decide) ⟨rfl, by decide, by rintro s ⟨⟩; decide, by decide⟩
  constructor
  · apply trace_decided_by_keys hkeys hdirection hlimit hresult hresult'
  · decide +kernel

end

end LockstepSort
