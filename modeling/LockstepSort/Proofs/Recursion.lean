import LockstepSort.Proofs.Likeness.Radix
import LockstepSort.Proofs.Run
import LockstepSort.Recursion

/-!
# The order in which sides are sorted

The two sides of a pivot have no position in common, so what is done with one of them depends
neither on whether the other one is sorted already nor on what that left in the scratch.  So all
plans do the same splits, in whichever order, and leave the same pairs behind; a sort follows one
of them.
-/

namespace LockstepSort

/-! ### The splits of pairs -/

namespace Pairs

variable {K V : Type} [DigitKey K] {n : Nat} {strategy : Strategy} {pairs : Pairs K V n}

/-- The splits that are done to sort pairs. -/
def splits (strategy : Strategy) {n : Nat} (pairs : Pairs K V n) : List Event :=
  match h : strategy.action n with
  | .split =>
    let (parted, pivot) := pairs.partition strategy.direction
      (Nat.lt_of_succ_lt (Strategy.one_lt_of_action_split h))
    .split n pivot
      :: ((parted.front pivot).splits strategy ++ (parted.back pivot).splits strategy)
  | _ => []
termination_by n

theorem splits_of_not_split (h : strategy.action n ≠ .split) :
  pairs.splits strategy = []
  := by
  rw [splits]
  split
  next hsplit => apply absurd hsplit h
  next => rfl

theorem splits_of_split {parted : Pairs K V n} {pivot : Fin n} {nonempty : 0 < n}
    (h : strategy.action n = .split)
    (hparted : pairs.partition strategy.direction nonempty = (parted, pivot)) :
  pairs.splits strategy
    = .split n pivot
      :: ((parted.front pivot).splits strategy ++ (parted.back pivot).splits strategy)
  := by
  rw [splits]
  split
  next => rw [hparted]
  next hsplit => apply absurd h hsplit

end Pairs

/-! ### Plans -/

namespace Plan

variable {n : Nat}

/-- The two sides have no position in common. -/
theorem first_second_disjoint (plan : Plan) (w : Window n) (pivot : Fin w.length) :
  (plan.first w pivot).offset + (plan.first w pivot).length ≤ (plan.second w pivot).offset
    ∨ (plan.second w pivot).offset + (plan.second w pivot).length ≤ (plan.first w pivot).offset
  := by
  have hdisjoint := w.before_stop_le_after pivot
  obtain ⟨hfirst, hsecond⟩ | ⟨hfirst, hsecond⟩ := plan.first_second_cases w pivot <;>
    rw [hfirst, hsecond]
  · left
    apply hdisjoint
  · right
    apply hdisjoint

/-- What holds of both sides does so whichever of them comes first. -/
theorem first_second_iff (plan : Plan) (w : Window n) (pivot : Fin w.length)
    {P : Window n → Prop} :
  P (plan.first w pivot) ∧ P (plan.second w pivot) ↔ P (w.before pivot) ∧ P (w.after pivot)
  := by
  obtain ⟨hfirst, hsecond⟩ | ⟨hfirst, hsecond⟩ := plan.first_second_cases w pivot <;>
    rw [hfirst, hsecond]
  apply and_comm

theorem first_shorterFirst (w : Window n) (pivot : Fin w.length) :
  shorterFirst.first w pivot = w.shorter pivot
  := by
  simp only [first, shorterFirst, decide_eq_true_eq]
  rfl

theorem second_shorterFirst (w : Window n) (pivot : Fin w.length) :
  shorterFirst.second w pivot = w.longer pivot
  := by
  simp only [second, shorterFirst, decide_eq_true_eq]
  rfl

end Plan

namespace Run

variable {K V : Type} [DigitKey K] {n : Nat} {plan plan' : Plan} {strategy : Strategy}
  {depth depth' : Nat} {w : Window n} {run run' parted middle other : Run K V n}

/-! ### Sorting by a plan -/

/-- A window that is not split is sorted without regard to the plan. -/
theorem sortBy_of_not_split (h : strategy.action w.length ≠ .split) :
  run.sortBy plan strategy depth w = run.sort strategy depth w
  := by
  rw [sortBy]
  split
  next haction =>
      rw [sort_of_leave haction]
      rfl
  next haction =>
      rw [sort_of_insertion haction]
      rfl
  next haction =>
      rw [sort_of_radix haction]
      rfl
  next haction => apply absurd haction h

theorem sortBy_of_split
    {nonempty : 0 < w.length} {pivot : Fin w.length} (h : strategy.action w.length = .split)
    (hparted : run.split strategy depth w nonempty = (parted, pivot)) :
  run.sortBy plan strategy depth w
    = parted.sortBy plan strategy (depth + 1) (plan.first w pivot) >>= fun middle =>
        middle.sortBy plan strategy (plan.depthOfSecond depth) (plan.second w pivot)
  := by
  rw [sortBy]
  split
  case h_4 => simp only [hparted]
  all_goals simp_all

/-- A sort follows a plan. -/
theorem sort_eq_sortBy (strategy : Strategy) (depth : Nat) (w : Window n) (run : Run K V n) :
  run.sort strategy depth w = run.sortBy .shorterFirst strategy depth w
  := by
  induction depth, w, run using sort.induct (K := K) strategy with
  | case1 depth w run haction | case2 depth w run haction | case3 depth w run haction =>
      rw [sortBy_of_not_split]
      simp [haction]
  | case4 depth w run haction nonempty parted pivot hparted ihshorter ihlonger =>
      rw [sort_of_split haction hparted, sortBy_of_split haction hparted,
        Plan.first_shorterFirst, Plan.second_shorterFirst, ihshorter]
      congr 1
      funext middle
      apply ihlonger

/-! ### What every plan does -/

omit [DigitKey K] in
theorem events_note (run : Run K V n) (depth : Nat) (w : Window n) (outcome : Outcome) :
  (run.note depth w outcome).events.toList
    = run.events.toList ++ (Visit.event? ⟨depth, w, outcome⟩).toList
  := by
  cases outcome <;> simp [events, note, Visit.event?]

theorem scratch_split {nonempty : 0 < w.length} {pivot : Fin w.length}
    (h : run.split strategy depth w nonempty = (parted, pivot)) :
  parted.scratch = run.scratch
  := by
  obtain ⟨_, -, rfl⟩ := split_eq h
  rfl

/-- A split writes down the length of the window and the position of the pivot. -/
theorem events_split {nonempty : 0 < w.length} {pivot : Fin w.length}
    (h : run.split strategy depth w nonempty = (parted, pivot)) :
  parted.events.toList = run.events.toList ++ [.split w.length pivot]
  := by
  obtain ⟨_, -, rfl⟩ := split_eq h
  apply events_note

/-- A window that is not split is sorted without writing anything down, even where the sort is
broken off. -/
theorem events_sort_of_not_split (depth : Nat) (run : Run K V n)
    (haction : strategy.action w.length ≠ .split) :
  (Attempt.state (run.sort strategy depth w)).events.toList = run.events.toList
  := by
  have hnote (run : Run K V n) {outcome : Outcome}
      (h : Visit.event? ⟨depth, w, outcome⟩ = none) :
      (run.note depth w outcome).events.toList = run.events.toList := by
    rw [events_note, h, Option.toList, List.append_nil]
  cases h : strategy.action w.length with
  | leave =>
      rw [sort_of_leave h]
      apply hnote run rfl
  | insertion =>
      rw [sort_of_insertion h]
      apply hnote (run.insertionSort strategy w) rfl
  | radix =>
      rw [sort_of_radix h, Attempt.measure_bind fun run : Run K V n => run.events.toList]
      · rw [events, visits_radixSort, events]
      · intro sorted
        apply hnote sorted rfl
  | split => apply absurd h haction

theorem Sorts.events_of_not_split (h : Sorts strategy depth w run run')
    (haction : strategy.action w.length ≠ .split) :
  run'.events.toList = run.events.toList
  := by
  have hevents := run.events_sort_of_not_split depth haction
  rwa [sort_eq_ok.mpr h] at hevents

/-- The splits of the pairs in a window are that of the window and those of its two sides, in
whichever order these come. -/
theorem splits_perm {nonempty : 0 < w.length} {pivot : Fin w.length} (plan : Plan)
    (haction : strategy.action w.length = .split)
    (hparted : run.split strategy depth w nonempty = (parted, pivot)) :
  ((run.pairs.slice w).splits strategy).Perm
    (.split w.length pivot :: ((parted.pairs.slice (plan.first w pivot)).splits strategy
      ++ (parted.pairs.slice (plan.second w pivot)).splits strategy))
  := by
  obtain ⟨sides, hsides, hbefore, hafter⟩ := split_sides hparted
  rw [Pairs.splits_of_split haction hsides]
  apply List.Perm.cons
  obtain ⟨hfirst, hsecond⟩ | ⟨hfirst, hsecond⟩ := plan.first_second_cases w pivot
  · rw [hfirst, hsecond, hbefore, hafter]
    apply List.Perm.refl
  · rw [hfirst, hsecond, hbefore, hafter]
    apply List.perm_append_comm

/-- The pairs in a window are arranged, the scratch serves as much as before, and the splits of
the pairs are written down in some order. -/
structure Carries (strategy : Strategy) (w : Window n) (run run' : Run K V n) : Prop where
  arranges : Arranges strategy w run run'
  capacity : run'.scratch.map Scratch.capacity = run.scratch.map Scratch.capacity
  events : run'.events.toList.Perm (run.events.toList ++ (run.pairs.slice w).splits strategy)

theorem Sorts.carries (h : Sorts strategy depth w run run')
    (haction : strategy.action w.length ≠ .split) :
  Carries strategy w run run'
  := by
  refine ⟨h.arranges, h.capacity, ?_⟩
  rw [Pairs.splits_of_not_split haction, List.append_nil, h.events_of_not_split haction]

/-- What is done with the two sides of a split comes to what is to be done with the window. -/
theorem Carries.of_split {nonempty : 0 < w.length} {pivot : Fin w.length}
    (haction : strategy.action w.length = .split)
    (hparted : run.split strategy depth w nonempty = (parted, pivot))
    (hfirst : Carries strategy (plan.first w pivot) parted middle)
    (hsecond : Carries strategy (plan.second w pivot) middle run') :
  Carries strategy w run run'
  where
  arranges := Arranges.of_split haction hparted (plan.first_second_cases w pivot)
    hfirst.arranges hsecond.arranges
  capacity := by rw [hsecond.capacity, hfirst.capacity, scratch_split hparted]
  events := by
    have hsplits := splits_perm plan haction hparted
    have hslice := hfirst.arranges.slice_eq_of_disjoint
      (plan.first_second_disjoint w pivot).symm
    have hperm := hsecond.events.trans (hfirst.events.append_right _)
    rw [hslice, events_split hparted, List.append_assoc, List.append_assoc] at hperm
    apply hperm.trans
    apply List.Perm.append_left
    apply hsplits.symm

/-- Sorting a window does the same by every plan. -/
theorem carries_of_sortBy (h : run.sortBy plan strategy depth w = .ok run') :
  Carries strategy w run run'
  := by
  induction depth, w, run using sortBy.induct (K := K) plan strategy generalizing run' with
  | case1 depth w run haction | case2 depth w run haction | case3 depth w run haction =>
      have hnot : strategy.action w.length ≠ .split := by simp [haction]
      rw [sortBy_of_not_split hnot, sort_eq_ok] at h
      apply h.carries hnot
  | case4 depth w run haction nonempty parted pivot hparted ihfirst ihsecond =>
      rw [sortBy_of_split haction hparted] at h
      obtain ⟨middle, hfirst, hsecond⟩ := bind_eq_ok.mp h
      apply Carries.of_split haction hparted (ihfirst hfirst) (ihsecond middle hsecond)

/-! ### Where a plan comes to its end -/

/-- A window with these pairs in it is sorted to the end, by calls at any depth, whatever stands
around it, if the scratch serves it. -/
def Completes (plan : Plan) (strategy : Strategy) (w : Window n) (range : Pairs K V w.length) :
    Prop :=
  ∀ (depth : Nat) (run : Run K V n), run.pairs.slice w = range →
    strategy.ServedBy w.length run.scratch →
    ∃ run', run.sortBy plan strategy depth w = .ok run'

/-- Whether a sort by digits comes to its end depends on the pairs in the window only. -/
theorem exists_radixSort_of_slice_eq (h : run.radixSort strategy w = .ok run')
    (hslice : other.pairs.slice w = run.pairs.slice w)
    (hserved : ∀ scratch ∈ run.scratch, w.length ≤ scratch.capacity)
    (hserved' : ∀ scratch ∈ other.scratch, w.length ≤ scratch.capacity) :
  ∃ other', other.radixSort strategy w = .ok other'
  := by
  obtain ⟨target, put, hradix, -⟩ := exists_radixSort_eq strategy hserved
  obtain ⟨target', put', hradix', -⟩ := exists_radixSort_eq strategy hserved'
  rw [hradix] at h
  obtain ⟨state, hstate, -⟩ := Attempt.within_eq_ok.mp h
  have hlike : (RadixState.mk (run.pairs.slice w) target).live.Like Eq
      (RadixState.mk (other.pairs.slice w) target').live := Pairs.like_eq_iff.mpr hslice.symm
  have hboth := RadixState.both_sort Likeness.eq strategy.span.passes_le_places hlike
    strategy.direction
  obtain ⟨state', hstate', -⟩ := hboth.exists_ok hstate
  use put' state'
  rw [hradix']
  apply Attempt.within_eq_ok.mpr
  use state', hstate'

/-- A window that is split is sorted to the end if its two sides are. -/
theorem Completes.of_split {nonempty : 0 < w.length} {pivot : Fin w.length}
    (haction : strategy.action w.length = .split)
    (hparted : run.split strategy depth w nonempty = (parted, pivot))
    (hbefore : Completes plan strategy (w.before pivot) (parted.pairs.slice (w.before pivot)))
    (hafter : Completes plan strategy (w.after pivot) (parted.pairs.slice (w.after pivot))) :
  Completes plan strategy w (run.pairs.slice w)
  := by
  intro depth' other hslice hserved
  generalize hparted' : other.split strategy depth' w nonempty = parts
  obtain ⟨parted', pivot'⟩ := parts
  obtain ⟨sides, hsides, hfront, hback⟩ := split_sides hparted
  obtain ⟨sides', hsides', hfront', hback'⟩ := split_sides hparted'
  rw [hslice, hsides] at hsides'
  obtain ⟨rfl, rfl⟩ := Prod.mk.inj hsides'
  rw [← scratch_split hparted'] at hserved
  rw [hfront, ← hfront'] at hbefore
  rw [hback, ← hback'] at hafter
  obtain ⟨hfirst, hsecond⟩ := (plan.first_second_iff w pivot
    (P := fun side => Completes plan strategy side (parted'.pairs.slice side))).mpr
    ⟨hbefore, hafter⟩
  obtain ⟨middle, hmiddle⟩ := hfirst (depth' + 1) parted' rfl
    (hserved.mono (plan.first_length_lt w pivot).le)
  have hcarries := carries_of_sortBy hmiddle
  obtain ⟨other', hother'⟩ := hsecond (plan.depthOfSecond depth') middle
    (hcarries.arranges.slice_eq_of_disjoint (plan.first_second_disjoint w pivot).symm)
    ((hserved.mono (plan.second_length_lt w pivot).le).of_capacity hcarries.capacity)
  use other'
  rw [sortBy_of_split haction hparted']
  apply bind_eq_ok.mpr
  use middle, hmiddle

/-- Where one plan comes to its end, every plan does. -/
theorem completes_of_sortBy (h : run.sortBy plan strategy depth w = .ok run')
    (hserved : strategy.ServedBy w.length run.scratch) (plan' : Plan) :
  Completes plan' strategy w (run.pairs.slice w)
  := by
  induction depth, w, run using sortBy.induct (K := K) plan strategy generalizing run' with
  | case1 depth w run haction =>
      intro depth' other _ _
      rw [sortBy_of_not_split (by simp [haction]), sort_of_leave haction]
      exact ⟨_, rfl⟩
  | case2 depth w run haction =>
      intro depth' other _ _
      rw [sortBy_of_not_split (by simp [haction]), sort_of_insertion haction]
      exact ⟨_, rfl⟩
  | case3 depth w run haction =>
      intro depth' other hslice hserved'
      have hlength := Strategy.le_scratchRequired haction
      rw [sortBy_of_not_split (by simp [haction]), sort_of_radix haction] at h ⊢
      obtain ⟨sorted, hsorted, -⟩ := bind_eq_ok.mp h
      obtain ⟨sorted', hsorted'⟩ := exists_radixSort_of_slice_eq hsorted hslice
        (fun s hs => hlength.trans (hserved s hs)) (fun s hs => hlength.trans (hserved' s hs))
      rw [hsorted']
      exact ⟨_, rfl⟩
  | case4 depth w run haction nonempty parted pivot hparted ihfirst ihsecond =>
      rw [sortBy_of_split haction hparted] at h
      obtain ⟨middle, hmiddle, hrun'⟩ := bind_eq_ok.mp h
      have hcarries := carries_of_sortBy hmiddle
      rw [← scratch_split hparted] at hserved
      have hfirst := ihfirst hmiddle (hserved.mono (plan.first_length_lt w pivot).le)
      have hsecond := ihsecond middle hrun'
        ((hserved.mono (plan.second_length_lt w pivot).le).of_capacity hcarries.capacity)
      rw [hcarries.arranges.slice_eq_of_disjoint (plan.first_second_disjoint w pivot).symm]
        at hsecond
      -- The other plan may take the sides the other way round.
      obtain ⟨hbefore, hafter⟩ := (plan.first_second_iff w pivot
        (P := fun side => Completes plan' strategy side (parted.pairs.slice side))).mp
        ⟨hfirst, hsecond⟩
      apply Completes.of_split haction hparted hbefore hafter

end Run

/-- A sort ends as the plainest recursion does, which sorts the side before the pivot and then the
one behind it, as its mirror image does, and as any other plan: if one of them comes to its end,
all do, with the same pairs and the same splits in some order.  Where digits can be read, they
do. -/
theorem sides_sorted_in_any_order {K V : Type} [DigitKey K] {n : Nat} {strategy : Strategy}
    {w : Window n} {scratch : Option (Scratch K V)} (pairs : Pairs K V n)
    (hserved : strategy.ServedBy w.length scratch) :
  let start := Run.start pairs scratch
  (∀ [LawfulDigitKey K], n < sizeLimit → ∃ run, start.sort strategy 0 w = .ok run)
  ∧ ∀ plan : Plan,
    ((∃ run, start.sort strategy 0 w = .ok run)
      ↔ ∃ run, start.sortBy plan strategy 0 w = .ok run)
    ∧ ∀ run run', start.sort strategy 0 w = .ok run →
      start.sortBy plan strategy 0 w = .ok run' →
      run'.pairs = run.pairs ∧ run'.events.toList.Perm run.events.toList
  := by
  intro start
  constructor
  · intro _ hlimit
    obtain ⟨run, hrun⟩ := Run.exists_sorts hlimit 0 w start hserved
    exact ⟨run, Run.sort_eq_ok.mpr hrun⟩
  · intro plan
    rw [Run.sort_eq_sortBy]
    refine ⟨⟨?_, ?_⟩, ?_⟩
    · rintro ⟨run, hrun⟩
      apply Run.completes_of_sortBy hrun hserved plan 0 start rfl hserved
    · rintro ⟨run, hrun⟩
      apply Run.completes_of_sortBy hrun hserved .shorterFirst 0 start rfl hserved
    · intro run run' hrun hrun'
      have hcarries := Run.carries_of_sortBy hrun
      have hcarries' := Run.carries_of_sortBy hrun'
      constructor
      · apply hcarries'.arranges.pairs_eq_of_arranged_eq hcarries.arranges rfl rfl
      · apply hcarries'.events.trans hcarries.events.symm

/-- Two pairs are behind the first pivot and three before it, so the run splits the two before it
comes to the three, and the plain recursion the three before the two. -/
theorem sides_sorted_plainly_and_mirrored :
  let strategy : Strategy := ⟨.ascending, 1, none, .low32⟩
  let pairs : Pairs UInt32 String 6 := ⟨#v[3, 1, 5, 2, 6, 4], #v["a", "b", "c", "d", "e", "f"]⟩
  let start := Run.start pairs none
  ∃ run plain mirrored, start.sort strategy 0 (.whole 6) = .ok run
    ∧ start.sortBy .plain strategy 0 (.whole 6) = .ok plain
    ∧ start.sortBy .mirrored strategy 0 (.whole 6) = .ok mirrored
    ∧ plain.pairs = run.pairs ∧ mirrored.pairs = run.pairs
    ∧ plain.events.toList.Perm run.events.toList
    ∧ mirrored.events.toList.Perm run.events.toList
  := by
  intro strategy pairs start
  have hserved : strategy.ServedBy (Window.whole 6).length
      (none : Option (Scratch UInt32 String)) := by
    rintro s ⟨⟩
  obtain ⟨hends, hplans⟩ := sides_sorted_in_any_order pairs hserved
  obtain ⟨run, hrun⟩ := hends (by decide)
  obtain ⟨hplain, hplainEq⟩ := hplans .plain
  obtain ⟨hmirrored, hmirroredEq⟩ := hplans .mirrored
  obtain ⟨plain, hplain⟩ := hplain.mp ⟨run, hrun⟩
  obtain ⟨mirrored, hmirrored⟩ := hmirrored.mp ⟨run, hrun⟩
  obtain ⟨hpairs, hevents⟩ := hplainEq run plain hrun hplain
  obtain ⟨hpairs', hevents'⟩ := hmirroredEq run mirrored hrun hmirrored
  exact ⟨run, plain, mirrored, hrun, hplain, hmirrored, hpairs, hpairs', hevents, hevents'⟩

end LockstepSort
