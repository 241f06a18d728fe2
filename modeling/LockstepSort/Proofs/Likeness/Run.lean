import LockstepSort.Proofs.Likeness.Radix
import LockstepSort.Proofs.Run

/-!
# Runs on like pairs

A run on like pairs takes the same decisions: it pays the same visits, comes to its end or is
broken off at the same point, and leaves like pairs behind.  What lies in the scratch does not
matter, as long as there is none or it serves the window.  Neither does the strategy, as long as
windows are taken up alike and sorts by digits go along with each other (`Accord`).
-/

namespace LockstepSort

namespace Run

variable {K K' V V' : Type} {P : K × V → K' × V' → Prop} {n : Nat} {strategy : Strategy}
  {w : Window n} {run next last : Run K V n}
  {run' next' last' : Run K' V' n}

/-- Two runs hold like pairs and have paid the same visits. -/
structure Like (P : K × V → K' × V' → Prop) (run : Run K V n) (run' : Run K' V' n) :
    Prop where
  pairs : run.pairs.Like P run'.pairs
  visits : run'.visits = run.visits

/-- Two runs that two others have come to are alike, and their scratch serves as much as
before. -/
structure Along (P : K × V → K' × V' → Prop) (run : Run K V n) (run' : Run K' V' n)
    (next : Run K V n) (next' : Run K' V' n) : Prop where
  like : next.Like P next'
  capacity : next.scratch.map Scratch.capacity = run.scratch.map Scratch.capacity
  capacity' : next'.scratch.map Scratch.capacity = run'.scratch.map Scratch.capacity

theorem Along.trans (h : Along P run run' next next') (h' : Along P next next' last last') :
  Along P run run' last last'
  := ⟨h'.like, h'.capacity.trans h.capacity, h'.capacity'.trans h.capacity'⟩

theorem Like.note (h : run.Like P run') (depth : Nat) (w : Window n) (outcome : Outcome) :
  (run.note depth w outcome).Like P (run'.note depth w outcome)
  where
  pairs := h.pairs
  visits := congrArg (Array.push · _) h.visits

theorem Like.replace (h : run.Like P run') {range : Pairs K V w.length}
    {range' : Pairs K' V' w.length} (hrange : range.Like P range') :
  (run.replace w range).Like P (run'.replace w range')
  where
  pairs := h.pairs.replace hrange
  visits := h.visits

variable [DigitKey K] [DigitKey K']

/-- Sorts by digits go along with each other if they do the same to the pairs in the window,
whatever columns there are to write over. -/
theorem Like.radixSort_of_both {strategy strategy' : Strategy} (h : run.Like P run')
    (hserved : ∀ scratch ∈ run.scratch, w.length ≤ scratch.capacity)
    (hserved' : ∀ scratch ∈ run'.scratch, w.length ≤ scratch.capacity)
    (hsorts : ∀ target target', Attempt.Both (fun s t => s.live.Like P t.live)
      (fun s t => s.live.Like P t.live)
      (RadixState.sort strategy.direction (strategy.span.passes K) ⟨run.pairs.slice w, target⟩)
      (RadixState.sort strategy'.direction (strategy'.span.passes K')
        ⟨run'.pairs.slice w, target'⟩)) :
  Attempt.Both (Along P run run') (Along P run run') (run.radixSort strategy w)
    (run'.radixSort strategy' w)
  := by
  obtain ⟨target, put, hradix, hput⟩ := exists_radixSort_eq strategy hserved
  obtain ⟨target', put', hradix', hput'⟩ := exists_radixSort_eq strategy' hserved'
  have halong (state : RadixState K V w.length) (state' : RadixState K' V' w.length)
      (hlive : state.live.Like P state'.live) : Along P run run' (put state) (put' state') := by
    obtain ⟨hpairs, hvisits, hcapacity⟩ := hput state
    obtain ⟨hpairs', hvisits', hcapacity'⟩ := hput' state'
    refine ⟨⟨?_, ?_⟩, hcapacity, hcapacity'⟩
    · rw [hpairs, hpairs']
      apply h.pairs.replace hlive
    · rw [hvisits, hvisits', h.visits]
  rw [hradix, hradix']
  apply (hsorts target target').within halong halong

/-- Like runs are split alike under strategies of one direction. -/
theorem Like.split (hP : Likeness P) (h : run.Like P run') {strategy' : Strategy}
    (hdirection : strategy'.direction = strategy.direction) {depth : Nat} {nonempty : 0 < w.length}
    {pivot : Fin w.length} (hnext : run.split strategy depth w nonempty = (next, pivot)) :
  ∃ next', run'.split strategy' depth w nonempty = (next', pivot)
    ∧ Along P run run' next next'
  := by
  obtain ⟨sides, hsides, rfl⟩ := split_eq hnext
  obtain ⟨sides', hsides', hlike⟩ := (h.pairs.slice w).partition hP hsides
  refine ⟨(run'.replace w sides').note depth w (.split pivot), ?_, ?_⟩
  · unfold Run.split
    rw [hdirection, hsides']
  · exact ⟨(h.replace hlike).note depth w (.split pivot), rfl, rfl⟩

/-- Windows are taken up alike under two strategies, and where all pairs satisfy `Q`, like pairs are
sorted by digits alike. -/
structure Accord (P : K × V → K' × V' → Prop) (Q : K × V → Prop) (n : Nat)
    (strategy strategy' : Strategy) : Prop where
  direction : strategy'.direction = strategy.direction
  action (length : Nat) : strategy'.action length = strategy.action length
  sorts {length : Nat} {pairs : Pairs K V length} {pairs' : Pairs K' V' length} : length ≤ n →
    pairs.Like P pairs' → (∀ a ∈ pairs.toList, Q a) → ∀ target target',
    Attempt.Both (fun s t => s.live.Like P t.live) (fun s t => s.live.Like P t.live)
      (RadixState.sort strategy.direction (strategy.span.passes K) ⟨pairs, target⟩)
      (RadixState.sort strategy'.direction (strategy'.span.passes K') ⟨pairs', target'⟩)

/-- Sorting a window takes like runs along with each other under strategies that agree on them, if
the scratch, if there is any, serves the window in both. -/
theorem Like.sort_of_accord {Q : K × V → Prop} {strategy' : Strategy} (hP : Likeness P)
    (haccord : Accord P Q n strategy strategy') (h : run.Like P run') (depth : Nat)
    (hwindow : ∀ a ∈ (run.pairs.slice w).toList, Q a)
    (hserved : strategy.ServedBy w.length run.scratch)
    (hserved' : strategy'.ServedBy w.length run'.scratch) :
  Attempt.Both (Along P run run') (Along P run run') (run.sort strategy depth w)
    (run'.sort strategy' depth w)
  := by
  induction depth, w, run using sort.induct (K := K) strategy generalizing run' with
  | case1 depth w run haction =>
      rw [sort_of_leave haction, sort_of_leave ((haccord.action w.length).trans haction)]
      apply Attempt.Both.ok ⟨h.note depth w .left, rfl, rfl⟩
  | case2 depth w run haction =>
      have hsorted := h.replace ((h.pairs.slice w).insertionSort hP strategy.direction)
      rw [sort_of_insertion haction, sort_of_insertion ((haccord.action w.length).trans haction),
        Run.insertionSort, Run.insertionSort, haccord.direction]
      apply Attempt.Both.ok ⟨hsorted.note depth w .inserted, rfl, rfl⟩
  | case3 depth w run haction =>
      have haction' := (haccord.action w.length).trans haction
      have hlength := Strategy.le_scratchRequired haction
      have hlength' := Strategy.le_scratchRequired haction'
      have hwithin : w.length ≤ n := Nat.le_trans (Nat.le_add_left w.length w.offset) w.fits
      have hradix := h.radixSort_of_both (fun s hs => hlength.trans (hserved s hs))
        (fun s hs => hlength'.trans (hserved' s hs))
        (haccord.sorts hwithin (h.pairs.slice w) hwindow)
      rw [sort_of_radix haction, sort_of_radix haction']
      apply hradix.bind
      intro sorted sorted' hsorted
      apply Attempt.Both.ok
      exact ⟨hsorted.like.note depth w .distributed, hsorted.capacity, hsorted.capacity'⟩
  | case4 depth w run haction nonempty parted pivot hparted ihshorter ihlonger =>
      obtain ⟨parted', hparted', hparts⟩ := h.split hP haccord.direction hparted
      have hshorter := (w.shorter_length_lt pivot).le
      have hlonger := (w.longer_length_lt pivot).le
      have hserves := hserved.of_capacity hparts.capacity
      have hserves' := hserved'.of_capacity hparts.capacity'
      rw [sort_of_split haction hparted,
        sort_of_split ((haccord.action w.length).trans haction) hparted']
      obtain ⟨hsubset, hsubset'⟩ := slice_subset_of_split hparted
      have hfirst := (ihshorter hparts.like (fun a ha => hwindow a (hsubset ha))
        (hserves.mono hshorter) (hserves'.mono hshorter)).imp
        (fun _ _ => hparts.trans) (fun _ _ => hparts.trans)
      apply hfirst.bind_of_ok
      intro middle middle' hok hmiddle
      -- What the nested call sorts does not reach the side that the call goes on with.
      have hslice := (sort_eq_ok.mp hok).arranges.slice_eq_of_disjoint
        (w.shorter_longer_disjoint pivot).symm
      rw [← hslice] at hsubset'
      have hsecond := ihlonger middle hmiddle.like (fun a ha => hwindow a (hsubset' ha))
        ((hserved.mono hlonger).of_capacity hmiddle.capacity)
        ((hserved'.mono hlonger).of_capacity hmiddle.capacity')
      apply hsecond.imp (fun _ _ => hmiddle.trans) (fun _ _ => hmiddle.trans)

/-- Sorting a window takes like runs along with each other, if the scratch, if there is any,
serves the window in both. -/
theorem Like.sort (hP : Likeness P) (h : run.Like P run') (depth : Nat)
    (hserved : strategy.ServedBy w.length run.scratch)
    (hserved' : strategy.ServedBy w.length run'.scratch) :
  Attempt.Both (Along P run run') (Along P run run') (run.sort strategy depth w)
    (run'.sort strategy depth w)
  := by
  have haccord : Accord P (fun _ => True) n strategy strategy := by
    refine ⟨rfl, fun _ => rfl, ?_⟩
    intro length pairs pairs' _ hpairs _ target target'
    rw [hP.passes]
    apply RadixState.both_sort hP strategy.span.passes_le_places hpairs
  apply h.sort_of_accord hP haccord depth (fun _ _ => trivial) hserved hserved'

end Run

end LockstepSort
