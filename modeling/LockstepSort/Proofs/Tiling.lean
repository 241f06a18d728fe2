import LockstepSort.Proofs.Run

/-!
# Leaves and pivots

The windows that a run takes up form a tree: a window that is split has the windows before and
behind its pivot below it, and the others are leaves.  `Visit.Stands` says what stands in each
of them when the run is over: leaves are in order, and pivots stand between what precedes them
and what does not.  `Tiling` follows the tree: the leaves and the pivots share out the
positions, and the leaves are in order among one another.
-/

namespace LockstepSort

/-! ### Visits -/

section

variable {n : Nat} {strategy : Strategy} {visit : Visit n}

/-- A position lies in a window. -/
def Window.Holds (w : Window n) (position : Nat) : Prop :=
  w.offset ≤ position ∧ position < w.offset + w.length

instance (w : Window n) (position : Nat) : Decidable (w.Holds position) :=
  inferInstanceAs (Decidable (_ ∧ _))

/-- A window lies in another one. -/
def Window.Within (inner outer : Window n) : Prop :=
  outer.offset ≤ inner.offset
    ∧ inner.offset + inner.length ≤ outer.offset + outer.length

/-- What was done with a window that came to this. -/
def Outcome.action : Outcome → Action
  | left => .leave
  | inserted => .insertion
  | distributed => .radix
  | split _ => .split

/-- Whether a visit decides what stands at a position in the end: it put its pivot there, or
the window was not split and the position lies in it. -/
def Visit.settles (visit : Visit n) (position : Nat) : Bool :=
  match visit.outcome with
  | .split pivot => decide (position = visit.window.offset + pivot)
  | _ => decide (visit.window.Holds position)

/-- The window of a visit was not split. -/
def Visit.IsLeaf (visit : Visit n) : Prop := ∀ pivot, visit.outcome ≠ .split pivot

theorem Visit.IsLeaf.settles (h : visit.IsLeaf) (position : Nat) :
  visit.settles position = decide (visit.window.Holds position)
  := by
  unfold Visit.settles
  split
  next houtcome => apply absurd houtcome (h _)
  next => rfl

/-- What became of a window is what the strategy has for windows of its length. -/
structure Visit.Obeys (strategy : Strategy) (visit : Visit n) : Prop where
  left : visit.outcome = .left ↔ visit.window.length ≤ 1
  inserted : visit.outcome = .inserted
    ↔ 2 ≤ visit.window.length ∧ visit.window.length ≤ strategy.radixLimit
      ∧ ∃ limit, strategy.insertionLimit = some limit ∧ visit.window.length ≤ limit
  distributed : visit.outcome = .distributed
    ↔ 2 ≤ visit.window.length ∧ visit.window.length ≤ strategy.radixLimit
      ∧ ∀ limit, strategy.insertionLimit = some limit → limit < visit.window.length
  split : (∃ pivot, visit.outcome = .split pivot)
    ↔ 2 ≤ visit.window.length ∧ strategy.radixLimit < visit.window.length

theorem Visit.obeys_of_action
    (h : visit.outcome.action = strategy.action visit.window.length) :
  visit.Obeys strategy
  := by
  have houtcome (outcome : Outcome) (houtcome : ∀ pivot, outcome ≠ .split pivot) :
      visit.outcome = outcome ↔ strategy.action visit.window.length = outcome.action := by
    rw [← h]
    cases visit.outcome <;> cases outcome <;> simp_all [Outcome.action]
  constructor
  · rw [houtcome _ (by simp)]
    apply Strategy.action_eq_leave_iff
  · rw [houtcome _ (by simp), ← Strategy.insertsAt_iff]
    apply Strategy.action_eq_insertion_iff
  · rw [houtcome _ (by simp), ← Strategy.not_insertsAt_iff]
    apply Strategy.action_eq_radix_iff
  · have hsplit : (∃ pivot, visit.outcome = .split pivot)
        ↔ strategy.action visit.window.length = .split := by
      rw [← h]
      cases visit.outcome <;> simp [Outcome.action]
    apply hsplit.trans Strategy.action_eq_split_iff

theorem Window.Within.trans {inner middle outer : Window n} (h : inner.Within middle)
    (h' : middle.Within outer) :
  inner.Within outer
  := ⟨h'.1.trans h.1, h.2.trans h'.2⟩

theorem Window.before_within (w : Window n) (pivot : Fin w.length) :
  (w.before pivot).Within w
  := by
  have := pivot.isLt
  simp only [Within, before]
  omega

theorem Window.after_within (w : Window n) (pivot : Fin w.length) :
  (w.after pivot).Within w
  := by
  have := pivot.isLt
  simp only [Within, after]
  omega

/-- A position in a window lies before its pivot, at it or behind it. -/
theorem Window.holds_iff (w : Window n) (pivot : Fin w.length) (position : Nat) :
  (if (w.before pivot).Holds position then 1 else 0)
      + (if (w.after pivot).Holds position then 1 else 0)
      + (if position = w.offset + pivot then 1 else 0)
    = if w.Holds position then 1 else 0
  := by
  have := pivot.isLt
  split_ifs <;> simp only [Holds, before, after] at * <;> omega

namespace Window.Within

variable {K V : Type} {inner outer : Window n}

/-- What is put in a window leaves alone what surrounds it in an outer one, and what surrounds
that. -/
private theorem exists_toList_replace (h : inner.Within outer) (pairs : Pairs K V n) :
  ∃ before front back behind, before.length = outer.offset
    ∧ front.length + inner.length + back.length = outer.length
    ∧ ∀ range : Pairs K V inner.length,
      (pairs.replace inner range).toList = before ++ (front ++ range.toList ++ back) ++ behind
  := by
  have := outer.fits
  obtain ⟨hoffset, hstop⟩ := h
  use (pairs.toList.take inner.offset).take outer.offset,
    (pairs.toList.take inner.offset).drop outer.offset,
    (pairs.toList.drop (inner.offset + inner.length)).take
      (outer.offset + outer.length - (inner.offset + inner.length)),
    (pairs.toList.drop (inner.offset + inner.length)).drop
      (outer.offset + outer.length - (inner.offset + inner.length))
  refine ⟨?_, ?_, ?_⟩
  · simp only [List.length_take, Pairs.length_toList]
    omega
  · simp only [List.length_take, List.length_drop, Pairs.length_toList]
    omega
  · intro range
    rw [Pairs.toList_replace]
    simp only [List.append_assoc, List.take_append_drop]
    rw [← List.append_assoc (List.take _ _) (List.drop _ _), List.take_append_drop]

/-- What is put in a window stands in an outer one between what stood there before. -/
theorem exists_toList_slice_replace (h : inner.Within outer) (pairs : Pairs K V n) :
  ∃ front back, ∀ range : Pairs K V inner.length,
    ((pairs.replace inner range).slice outer).toList = front ++ range.toList ++ back
  := by
  obtain ⟨before, front, back, behind, hbefore, hlength, hlist⟩ := h.exists_toList_replace pairs
  use front, back
  intro range
  apply Pairs.toList_slice_of_toList (hlist range) hbefore
  simp only [List.length_append, Pairs.length_toList, hlength]

/-- What is put in an outer window takes the place of what was put in an inner one. -/
theorem replace_replace (h : inner.Within outer) (pairs : Pairs K V n)
    (range : Pairs K V inner.length) (range' : Pairs K V outer.length) :
  (pairs.replace inner range).replace outer range' = pairs.replace outer range'
  := by
  obtain ⟨before, front, back, behind, hbefore, hlength, hlist⟩ := h.exists_toList_replace pairs
  have hreplace (range : Pairs K V inner.length) :
      ((pairs.replace inner range).replace outer range').toList
        = before ++ range'.toList ++ behind := by
    have hstop : (before ++ (front ++ range.toList ++ back)).length
        = outer.offset + outer.length := by
      simp only [List.length_append, Pairs.length_toList, hbefore, hlength]
    rw [Pairs.toList_replace, hlist, List.drop_left' hstop, List.append_assoc before,
      List.take_left' hbefore]
  apply Pairs.toList_injective
  rw [hreplace, ← hreplace (pairs.slice inner), Pairs.replace_slice]

theorem slice_subset (h : inner.Within outer) (pairs : Pairs K V n) :
  (pairs.slice inner).toList ⊆ (pairs.slice outer).toList
  := by
  obtain ⟨front, back, hslice⟩ := h.exists_toList_slice_replace pairs
  have hinner := hslice (pairs.slice inner)
  rw [Pairs.replace_slice] at hinner
  rw [hinner]
  intro pair hpair
  simp [hpair]

end Window.Within

end

/-! ### Tilings -/

section

variable {K V : Type} [DigitKey K] {n : Nat} {strategy : Strategy} {pairs pairs' : Pairs K V n}
  {w : Window n} {visits : List (Visit n)} {visit leaf leaf' : Visit n}

/-- A visit did what the strategy has for its window, and the pairs there stand as this leaves
them. -/
structure Visit.Stands (strategy : Strategy) (pairs : Pairs K V n) (visit : Visit n) : Prop where
  action : visit.outcome.action = strategy.action visit.window.length
  inserted : visit.outcome = .inserted → (pairs.slice visit.window).toList.Pairwise fun a b =>
    strategy.direction.admits a.1 b.1
  distributed : visit.outcome = .distributed →
    (pairs.slice visit.window).toList.Pairwise fun a b => strategy.direction.admits
      (digitValue (strategy.span.passes K) a.1) (digitValue (strategy.span.passes K) b.1)
  split (pivot : Nat) : visit.outcome = .split pivot →
    ∃ hpivot : pivot < visit.window.length,
      Pairs.Parted strategy.direction (pairs.slice visit.window) ⟨pivot, hpivot⟩

theorem Visit.Stands.congr (h : visit.Stands strategy pairs)
    (hslice : pairs'.slice visit.window = pairs.slice visit.window) :
  visit.Stands strategy pairs'
  := by
  constructor
  · apply h.action
  · rw [hslice]
    apply h.inserted
  · rw [hslice]
    apply h.distributed
  · rw [hslice]
    apply h.split

/-- The visits of a call that sorts the window `w`, among the pairs that the run leaves. -/
inductive Tiling (strategy : Strategy) (pairs : Pairs K V n) :
    Window n → List (Visit n) → Prop where
  | leaf {visit : Visit n} (h : visit.Stands strategy pairs) (hleaf : visit.IsLeaf) :
    Tiling strategy pairs visit.window [visit]
  | split {depth : Nat} {w : Window n} {pivot : Fin w.length} {visits front back : List (Visit n)}
      (h : Visit.Stands strategy pairs ⟨depth, w, .split pivot⟩)
      (hfront : Tiling strategy pairs (w.before pivot) front)
      (hback : Tiling strategy pairs (w.after pivot) back)
      (hvisits : visits.Perm (⟨depth, w, .split pivot⟩ :: (front ++ back))) :
    Tiling strategy pairs w visits

namespace Tiling

theorem mem_split {depth : Nat} {front back : List (Visit n)} {pivot : Nat}
    (hvisits : visits.Perm (⟨depth, w, .split pivot⟩ :: (front ++ back)))
    (hvisit : visit ∈ visits) :
  visit = ⟨depth, w, .split pivot⟩ ∨ visit ∈ front ∨ visit ∈ back
  := by
  simpa using hvisits.mem_iff.mp hvisit

theorem stands (h : Tiling strategy pairs w visits) (hvisit : visit ∈ visits) :
  visit.Stands strategy pairs
  := by
  induction h with
  | leaf hstands =>
      obtain rfl := List.mem_singleton.mp hvisit
      apply hstands
  | split hstands _ _ hvisits ihfront ihback =>
      obtain rfl | hmem | hmem := mem_split hvisits hvisit
      · apply hstands
      · apply ihfront hmem
      · apply ihback hmem

theorem within (h : Tiling strategy pairs w visits) (hvisit : visit ∈ visits) :
  visit.window.Within w
  := by
  induction h with
  | leaf =>
      obtain rfl := List.mem_singleton.mp hvisit
      exact ⟨Nat.le_refl _, Nat.le_refl _⟩
  | split _ _ _ hvisits ihfront ihback =>
      obtain rfl | hmem | hmem := mem_split hvisits hvisit
      · exact ⟨Nat.le_refl _, Nat.le_refl _⟩
      · apply (ihfront hmem).trans (Window.before_within _ _)
      · apply (ihback hmem).trans (Window.after_within _ _)

/-- Every position of the window is settled by one visit, and no other position is. -/
theorem countP_settles (h : Tiling strategy pairs w visits) (position : Nat) :
  visits.countP (fun visit => visit.settles position) = if w.Holds position then 1 else 0
  := by
  induction h with
  | leaf _ hleaf => simp [hleaf.settles]
  | @split _ w pivot _ _ _ _ _ _ hvisits ihfront ihback =>
      rw [hvisits.countP_eq, List.countP_cons, List.countP_append, ihfront, ihback,
        ← w.holds_iff pivot position]
      simp [Visit.settles]

/-- A window that is sorted by digits is no longer than the scratch that is required. -/
theorem le_scratchRequired (h : Tiling strategy pairs w visits) (hvisit : visit ∈ visits)
    (hdistributed : visit.outcome = .distributed) :
  visit.window.length ≤ strategy.scratchRequired w.length
  := by
  have haction := (h.stands hvisit).action
  rw [hdistributed] at haction
  apply (Strategy.le_scratchRequired haction.symm).trans
  apply strategy.scratchRequired_mono
  obtain ⟨hoffset, hstop⟩ := h.within hvisit
  omega

/-- What stands in an earlier leaf precedes what stands in a later one. -/
theorem precedes_of_leaves [Std.TransOrd K] (h : Tiling strategy pairs w visits)
    (hleaf : leaf ∈ visits) (hleaf' : leaf' ∈ visits) (hisLeaf : leaf.IsLeaf)
    (hisLeaf' : leaf'.IsLeaf) (hoffset : leaf.window.offset < leaf'.window.offset)
    {a b : K × V} (ha : a ∈ (pairs.slice leaf.window).toList)
    (hb : b ∈ (pairs.slice leaf'.window).toList) :
  strategy.direction.precedes a.1 b.1
  := by
  induction h with
  | leaf =>
      obtain rfl := List.mem_singleton.mp hleaf
      obtain rfl := List.mem_singleton.mp hleaf'
      omega
  | @split _ w pivot _ _ _ hstands hfront hback hvisits ihfront ihback =>
      obtain rfl | hmem | hmem := mem_split hvisits hleaf
      · apply absurd rfl (hisLeaf _)
      · obtain rfl | hmem' | hmem' := mem_split hvisits hleaf'
        · apply absurd rfl (hisLeaf' _)
        · apply ihfront hmem hmem'
        · obtain ⟨_, hparted⟩ := hstands.split pivot rfl
          obtain ⟨hprecede, hfollow⟩ := Pairs.parted_iff.mp hparted
          have hbefore := (hfront.within hmem).slice_subset pairs ha
          have hbehind := (hback.within hmem').slice_subset pairs hb
          rw [Pairs.toList_slice_before] at hbefore
          rw [Pairs.toList_slice_after] at hbehind
          apply Direction.precedes_of_not_precedes (hprecede a hbefore) (hfollow b hbehind)
      · obtain rfl | hmem' | hmem' := mem_split hvisits hleaf'
        · apply absurd rfl (hisLeaf' _)
        · -- A leaf behind the pivot does not start before one in front of it.
          obtain ⟨hstart, -⟩ := hback.within hmem
          obtain ⟨-, hstop⟩ := hfront.within hmem'
          simp only [Window.after, Window.before] at hstart hstop
          omega
        · apply ihback hmem hmem'

/-- A tiling says nothing of what stands outside its window. -/
theorem congr (h : Tiling strategy pairs w visits) (hslice : pairs'.slice w = pairs.slice w) :
  Tiling strategy pairs' w visits
  := by
  induction h with
  | leaf hstands hleaf => apply Tiling.leaf (hstands.congr hslice) hleaf
  | split hstands _ _ hvisits ihfront ihback =>
      apply Tiling.split (hstands.congr hslice) (ihfront _) (ihback _) hvisits
      · apply Pairs.toList_injective
        rw [Pairs.toList_slice_before, Pairs.toList_slice_before, hslice]
      · apply Pairs.toList_injective
        rw [Pairs.toList_slice_after, Pairs.toList_slice_after, hslice]

/-- Of the two windows that a pivot leaves, either may be visited first. -/
theorem of_shorter_longer {depth : Nat} {pivot : Fin w.length} {first second : List (Visit n)}
    (h : Visit.Stands strategy pairs ⟨depth, w, .split pivot⟩)
    (hshorter : Tiling strategy pairs (w.shorter pivot) first)
    (hlonger : Tiling strategy pairs (w.longer pivot) second) :
  Tiling strategy pairs w (⟨depth, w, .split pivot⟩ :: (first ++ second))
  := by
  obtain ⟨hfirst, hsecond⟩ | ⟨hfirst, hsecond⟩ := w.shorter_longer_cases pivot
  · rw [hfirst] at hshorter
    rw [hsecond] at hlonger
    apply Tiling.split h hshorter hlonger (List.Perm.refl _)
  · rw [hfirst] at hshorter
    rw [hsecond] at hlonger
    apply Tiling.split h hlonger hshorter
    apply List.perm_append_comm.cons

end Tiling

/-- The visits that a call pays tile its window. -/
theorem Run.Sorts.exists_tiling [Std.TransOrd K] {depth : Nat} {run run' : Run K V n}
    (h : Sorts strategy depth w run run') :
  ∃ visits, run'.visits.toList = run.visits.toList ++ visits
    ∧ Tiling strategy run'.pairs w visits
  := by
  induction h with
  | @leave depth w run haction =>
      have hstands : Visit.Stands strategy run.pairs ⟨depth, w, .left⟩ :=
        ⟨haction.symm, by simp, by simp, by simp⟩
      exact ⟨_, Array.toList_push, .leaf hstands (by simp [Visit.IsLeaf])⟩
  | @insertion depth w run haction =>
      have hslice : ((run.insertionSort strategy w).pairs.slice w).toList
          = strategy.direction.stableSort Prod.fst (run.pairs.slice w).toList := by
        rw [insertionSort, replace, Pairs.slice_replace, Pairs.toList_insertionSort]
      have hstands : Visit.Stands strategy (run.insertionSort strategy w).pairs
          ⟨depth, w, .inserted⟩ := by
        refine ⟨haction.symm, ?_, by simp, by simp⟩
        intro _
        rw [hslice]
        apply Direction.pairwise_stableSort
      exact ⟨_, Array.toList_push, .leaf hstands (by simp [Visit.IsLeaf])⟩
  | @radix depth w run sorted haction hsorted =>
      obtain ⟨range, hrange, hpairs, hvisits⟩ := radixSort_eq_ok hsorted
      have hstands : Visit.Stands strategy sorted.pairs ⟨depth, w, .distributed⟩ := by
        refine ⟨haction.symm, by simp, ?_, by simp⟩
        intro _
        rw [hpairs, Pairs.slice_replace, hrange]
        apply Direction.pairwise_stableSort
      rw [← hvisits]
      exact ⟨_, Array.toList_push, .leaf hstands (by simp [Visit.IsLeaf])⟩
  | @split depth w run parted middle run' nonempty pivot haction hparted hshorter hlonger
      ihshorter ihlonger =>
      obtain ⟨first, hfirst, hfirstTiling⟩ := ihshorter
      obtain ⟨second, hsecond, hsecondTiling⟩ := ihlonger
      have hrun' := (Sorts.split haction hparted hshorter hlonger).arranges.toList_slice
      obtain ⟨sides, hsides, rfl⟩ := split_eq hparted
      obtain ⟨hparts, -, -⟩ := Pairs.partition_spec strategy.direction
        (run.pairs.slice w) nonempty
      rw [hsides] at hparts
      rw [Pairs.arranged_of_split haction hsides] at hrun'
      have hstands : Visit.Stands strategy run'.pairs ⟨depth, w, .split pivot⟩ := by
        refine ⟨haction.symm, by simp, by simp, ?_⟩
        rintro _ ⟨⟩
        use pivot.isLt
        apply hparts.of_perm hrun' (Pairs.arranged_perm _ _) (Pairs.arranged_perm _ _)
      refine ⟨⟨depth, w, .split pivot⟩ :: (first ++ second), ?_, ?_⟩
      · rw [hsecond, hfirst]
        simp [note, replace]
      · apply Tiling.of_shorter_longer hstands _ hsecondTiling
        apply hfirstTiling.congr
        apply hlonger.arranges.slice_eq_of_disjoint
        apply Window.shorter_longer_disjoint

/-- Each position of a window that was sorted is settled once, where a pivot was put or in one
window that was not split, and no other position is.  What became of a window is what the
strategy has for its length, and the windows that were sorted by digits fit the scratch that
is required.  When the run is over, the pairs before a pivot precede it and those behind it do
not, so the keys in one leaf precede those in the leaves behind it, in whichever order the
keys of one leaf stand. -/
theorem leaves_and_pivots_tile_window [Std.TransOrd K] {scratch : Option (Scratch K V)}
    {run : Run K V n} (h : (Run.start pairs scratch).sort strategy 0 w = .ok run) :
  (∀ position, run.visits.toList.countP (fun visit => visit.settles position)
    = if w.Holds position then 1 else 0)
  ∧ (∀ visit ∈ run.visits,
      visit.window.Within w ∧ visit.Obeys strategy
      ∧ (visit.outcome = .inserted → (run.pairs.slice visit.window).toList.Pairwise fun a b =>
          strategy.direction.admits a.1 b.1)
      ∧ (visit.outcome = .distributed → visit.window.length ≤ strategy.scratchRequired w.length
          ∧ (run.pairs.slice visit.window).toList.Pairwise fun a b => strategy.direction.admits
              (digitValue (strategy.span.passes K) a.1)
              (digitValue (strategy.span.passes K) b.1))
      ∧ ∀ pivot, visit.outcome = .split pivot → ∃ hpivot : pivot < visit.window.length,
          Pairs.Parted strategy.direction (run.pairs.slice visit.window) ⟨pivot, hpivot⟩)
  ∧ ∀ leaf ∈ run.visits, ∀ leaf' ∈ run.visits, leaf.IsLeaf → leaf'.IsLeaf →
      leaf.window.offset < leaf'.window.offset →
      ∀ a ∈ (run.pairs.slice leaf.window).toList, ∀ b ∈ (run.pairs.slice leaf'.window).toList,
        strategy.direction.precedes a.1 b.1
  := by
  obtain ⟨visits, hvisits, htiling⟩ := (Run.sort_eq_ok.mp h).exists_tiling
  obtain rfl : run.visits.toList = visits := hvisits
  have hmem {visit : Visit n} (hvisit : visit ∈ run.visits) : visit ∈ run.visits.toList :=
    Array.mem_toList_iff.mpr hvisit
  refine ⟨htiling.countP_settles, ?_, ?_⟩
  · intro visit hvisit
    have hstands := htiling.stands (hmem hvisit)
    refine ⟨htiling.within (hmem hvisit), Visit.obeys_of_action hstands.action,
      hstands.inserted, ?_, hstands.split⟩
    intro houtcome
    exact ⟨htiling.le_scratchRequired (hmem hvisit) houtcome, hstands.distributed houtcome⟩
  · intro leaf hleaf leaf' hleaf' hisLeaf hisLeaf' hoffset a ha b hb
    apply htiling.precedes_of_leaves (hmem hleaf) (hmem hleaf') hisLeaf hisLeaf' hoffset ha hb

end

/-- The digits that are read would put 34359738368 before 9, but each is in a leaf of its own. -/
theorem leaves_in_order_beyond_digits :
  let strategy : Strategy := ⟨.ascending, 2, none, .low32⟩
  let pairs : Pairs UInt64 String 5 :=
    ⟨#v[8589934592, 34359738368, 9, 4294967296, 17179869185], #v["a", "b", "c", "d", "e"]⟩
  ∃ run, (Run.start pairs none).sort strategy 0 (.whole 5) = .ok run
    ∧ (∀ position, run.visits.toList.countP (fun visit => visit.settles position)
      = if position < 5 then 1 else 0)
    ∧ ∀ a ∈ (run.pairs.slice ⟨0, 2, by decide⟩).toList,
      ∀ b ∈ (run.pairs.slice ⟨3, 2, by decide⟩).toList, a.1 < b.1
  := by
  intro strategy pairs
  have hpivot : ((Run.start pairs none).split strategy 0 (.whole 5) (by decide)).2
      = ⟨2, by decide⟩ := by
    decide +kernel +revert
  have hserved : strategy.ServedBy 5 (none : Option (Scratch UInt64 String)) := by
    rintro s ⟨⟩
  obtain ⟨run, hsorts⟩ := Run.exists_sorts (by decide) 0 (.whole 5) (Run.start pairs none) hserved
  have hrun := Run.sort_eq_ok.mpr hsorts
  obtain ⟨hcount, -, hleaves⟩ := leaves_and_pivots_tile_window hrun
  refine ⟨run, hrun, ?_, ?_⟩
  · intro position
    rw [hcount]
    simp [Window.Holds, Window.whole]
  · -- Both leaves are two pairs long, and so are sorted by digits.
    generalize hparts : (Run.start pairs none).split strategy 0 (.whole 5) _ = parts at hpivot
    obtain ⟨parted, pivot⟩ := parts
    obtain rfl := hpivot
    rw [Run.sort_of_split (by decide) hparts] at hrun
    obtain ⟨middle, hmiddle, hlonger⟩ := bind_eq_ok.mp hrun
    have hbehind := (Run.sort_eq_ok.mp hmiddle).visits_of_radix (by decide)
    have hbefore := (Run.sort_eq_ok.mp hlonger).visits_of_radix (by decide)
    have hshorter : (Window.whole 5).shorter ⟨2, by decide⟩ = ⟨3, 2, by decide⟩ := by decide
    have hlonger : (Window.whole 5).longer ⟨2, by decide⟩ = ⟨0, 2, by decide⟩ := by decide
    rw [hbehind, hshorter, hlonger] at hbefore
    intro a ha b hb
    have hprecedes := hleaves ⟨0, ⟨0, 2, by decide⟩, .distributed⟩ (by simp [hbefore])
      ⟨1, ⟨3, 2, by decide⟩, .distributed⟩ (by simp [hbefore]) (by rintro pivot ⟨⟩)
      (by rintro pivot ⟨⟩) (by decide) a ha b hb
    apply Std.compare_eq_lt.mp (Ordering.isLT_iff_eq_lt.mp hprecedes)

end LockstepSort
