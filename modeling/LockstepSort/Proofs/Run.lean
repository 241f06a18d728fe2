import LockstepSort.Proofs.Arrangement
import LockstepSort.Proofs.Radix.Sort
import LockstepSort.Run

/-!
# What a run does

`Run.Sorts` has one rule for each thing that may become of a window, and holds of two runs
exactly when sorting a window takes the one to the other.  Sorting a window leaves its pairs
in their arrangement, and everything around them as it was.  It does not fail as long as
digits can be read and the scratch, if there is any, serves the window.
-/

namespace LockstepSort

/-! ### Scratch that serves a window -/

section

variable {K V : Type} {strategy : Strategy} {length : Nat} {scratch : Option (Scratch K V)}

/-- The scratch, if there is any, serves the ranges of up to `length` pairs. -/
def Strategy.ServedBy (strategy : Strategy) (length : Nat) (scratch : Option (Scratch K V)) :
    Prop :=
  ∀ s ∈ scratch, strategy.scratchRequired length ≤ s.capacity

theorem Strategy.ServedBy.mono {shorter : Nat} (h : strategy.ServedBy length scratch)
    (hle : shorter ≤ length) :
  strategy.ServedBy shorter scratch
  := by
  intro s hs
  apply (strategy.scratchRequired_mono hle).trans (h s hs)

theorem Strategy.exists_of_not_servedBy (h : ¬ strategy.ServedBy length scratch) :
  ∃ s, scratch = some s ∧ s.capacity < strategy.scratchRequired length
  := by
  simpa [ServedBy] using h

/-- What scratch serves depends on its capacity only. -/
theorem Strategy.ServedBy.of_capacity
    {scratch' : Option (Scratch K V)} (h : strategy.ServedBy length scratch)
    (hcapacity : scratch'.map Scratch.capacity = scratch.map Scratch.capacity) :
  strategy.ServedBy length scratch'
  := by
  rintro s rfl
  obtain ⟨s', hs', hs⟩ := Option.map_eq_some_iff.mp hcapacity.symm
  rw [← hs]
  apply h s' hs'

end

namespace Run

/-! ### The rules of a run -/

section

variable {K V : Type} [DigitKey K] {n : Nat}

/-- A call at nesting depth `depth` that sorts the window `w` takes one run to another. -/
inductive Sorts (strategy : Strategy) : Nat → Window n → Run K V n → Run K V n → Prop where
  | leave {depth : Nat} {w : Window n} {run : Run K V n}
      (h : strategy.action w.length = .leave) :
    Sorts strategy depth w run (run.note depth w .left)
  | insertion {depth : Nat} {w : Window n} {run : Run K V n}
      (h : strategy.action w.length = .insertion) :
    Sorts strategy depth w run ((run.insertionSort strategy w).note depth w .inserted)
  | radix {depth : Nat} {w : Window n} {run sorted : Run K V n}
      (h : strategy.action w.length = .radix)
      (hsorted : run.radixSort strategy w = .ok sorted) :
    Sorts strategy depth w run (sorted.note depth w .distributed)
  | split {depth : Nat} {w : Window n} {run parted middle run' : Run K V n}
      {nonempty : 0 < w.length} {pivot : Fin w.length}
      (h : strategy.action w.length = .split)
      (hparted : run.split strategy depth w nonempty = (parted, pivot))
      (hshorter : Sorts strategy (depth + 1) (w.shorter pivot) parted middle)
      (hlonger : Sorts strategy depth (w.longer pivot) middle run') :
    Sorts strategy depth w run run'

end

section

variable {K V : Type} [DigitKey K] {n : Nat} {strategy : Strategy} {depth : Nat}
  {w : Window n} {run run' parted : Run K V n} {pivot : Fin w.length}

theorem sort_of_leave (h : strategy.action w.length = .leave) :
  run.sort strategy depth w = .ok (run.note depth w .left)
  := by
  rw [sort]
  split
  case h_1 => rfl
  all_goals simp_all

theorem sort_of_insertion (h : strategy.action w.length = .insertion) :
  run.sort strategy depth w
    = .ok ((run.insertionSort strategy w).note depth w .inserted)
  := by
  rw [sort]
  split
  case h_2 => rfl
  all_goals simp_all

theorem sort_of_radix (h : strategy.action w.length = .radix) :
  run.sort strategy depth w
    = run.radixSort strategy w >>= fun sorted => .ok (sorted.note depth w .distributed)
  := by
  rw [sort]
  split
  case h_3 => rfl
  all_goals simp_all

theorem sort_of_split
    {nonempty : 0 < w.length} (h : strategy.action w.length = .split)
    (hparted : run.split strategy depth w nonempty = (parted, pivot)) :
  run.sort strategy depth w
    = parted.sort strategy (depth + 1) (w.shorter pivot) >>= fun middle =>
        middle.sort strategy depth (w.longer pivot)
  := by
  rw [sort]
  split
  case h_4 => simp only [hparted]
  all_goals simp_all

/-- The rules describe exactly what sorting a window does. -/
theorem sort_eq_ok :
  run.sort strategy depth w = .ok run' ↔ Sorts strategy depth w run run'
  := by
  constructor
  · intro h
    induction depth, w, run using sort.induct (K := K) strategy generalizing run' with
    | case1 depth w run haction =>
        rw [sort_of_leave haction] at h
        obtain rfl := Except.ok.inj h
        apply Sorts.leave haction
    | case2 depth w run haction =>
        rw [sort_of_insertion haction] at h
        obtain rfl := Except.ok.inj h
        apply Sorts.insertion haction
    | case3 depth w run haction =>
        rw [sort_of_radix haction] at h
        obtain ⟨sorted, hsorted, hnote⟩ := bind_eq_ok.mp h
        obtain rfl := Except.ok.inj hnote
        apply Sorts.radix haction hsorted
    | case4 depth w run haction nonempty parted pivot hparted ihshorter ihlonger =>
        rw [sort_of_split haction hparted] at h
        obtain ⟨middle, hshorter, hlonger⟩ := bind_eq_ok.mp h
        apply Sorts.split haction hparted (ihshorter hshorter) (ihlonger middle hlonger)
  · intro h
    induction h with
    | leave haction => apply sort_of_leave haction
    | insertion haction => apply sort_of_insertion haction
    | radix haction hsorted =>
        rw [sort_of_radix haction]
        apply bind_eq_ok.mpr
        exact ⟨_, hsorted, rfl⟩
    | split haction hparted _ _ ihshorter ihlonger =>
        rw [sort_of_split haction hparted]
        apply bind_eq_ok.mpr
        exact ⟨_, ihshorter, ihlonger⟩

theorem split_eq
    {nonempty : 0 < w.length} (h : run.split strategy depth w nonempty = (parted, pivot)) :
  ∃ sides, (run.pairs.slice w).partition strategy.direction nonempty = (sides, pivot)
    ∧ (run.replace w sides).note depth w (.split pivot) = parted
  := by
  unfold split at h
  generalize hpartition : (run.pairs.slice w).partition strategy.direction nonempty = parts at h
  obtain ⟨sides, pivot'⟩ := parts
  obtain ⟨rfl, rfl⟩ := Prod.mk.inj h
  use sides

/-- What stands on the two sides of a split. -/
theorem split_sides {nonempty : 0 < w.length} {pivot : Fin w.length}
    (h : run.split strategy depth w nonempty = (parted, pivot)) :
  ∃ sides, (run.pairs.slice w).partition strategy.direction nonempty = (sides, pivot)
    ∧ parted.pairs.slice (w.before pivot) = sides.front pivot
    ∧ parted.pairs.slice (w.after pivot) = sides.back pivot
  := by
  obtain ⟨sides, hsides, rfl⟩ := split_eq h
  refine ⟨sides, hsides, ?_, ?_⟩
  · apply Pairs.toList_injective
    apply (Pairs.toList_slice_before _ w pivot).trans
    rw [note, replace, Pairs.slice_replace]
    rfl
  · apply Pairs.toList_injective
    apply (Pairs.toList_slice_after _ w pivot).trans
    rw [note, replace, Pairs.slice_replace]
    rfl

/-- The pairs on either side of a pivot are some of those in the window that was split. -/
theorem slice_subset_of_split {nonempty : 0 < w.length} {pivot : Fin w.length}
    (h : run.split strategy depth w nonempty = (parted, pivot)) :
  (parted.pairs.slice (w.shorter pivot)).toList ⊆ (run.pairs.slice w).toList
    ∧ (parted.pairs.slice (w.longer pivot)).toList ⊆ (run.pairs.slice w).toList
  := by
  obtain ⟨sides, hsides, hfront, hback⟩ := split_sides h
  obtain ⟨-, -, hperm⟩ := Pairs.partition_spec strategy.direction (run.pairs.slice w) nonempty
  rw [hsides] at hperm
  have htake := (congrArg Pairs.toList hfront).trans (sides.toList_front pivot)
  have hdrop := (congrArg Pairs.toList hback).trans (sides.toList_back pivot)
  have hbefore : (parted.pairs.slice (w.before pivot)).toList ⊆ (run.pairs.slice w).toList := by
    rw [htake]
    apply List.Subset.trans (List.take_subset _ _) hperm.subset
  have hafter : (parted.pairs.slice (w.after pivot)).toList ⊆ (run.pairs.slice w).toList := by
    rw [hdrop]
    apply List.Subset.trans (List.drop_subset _ _) hperm.subset
  obtain ⟨hshorter, hlonger⟩ | ⟨hshorter, hlonger⟩ := w.shorter_longer_cases pivot <;>
    rw [hshorter, hlonger]
  · exact ⟨hbefore, hafter⟩
  · exact ⟨hafter, hbefore⟩

/-! ### Sorting by digits -/

theorem radixSort_eq_ok {sorted : Run K V n} (h : run.radixSort strategy w = .ok sorted) :
  ∃ range : Pairs K V w.length,
    range.toList = strategy.direction.stableSort
        (fun pair => digitValue (strategy.span.passes K) pair.1) (run.pairs.slice w).toList
    ∧ sorted.pairs = run.pairs.replace w range
    ∧ sorted.visits = run.visits
  := by
  unfold radixSort at h
  split at h
  next scratch hscratch =>
      obtain ⟨front, hfront, hsorted⟩ := bind_eq_ok.mp h
      obtain ⟨state, hstate, rfl⟩ := Attempt.within_eq_ok.mp hsorted
      exact ⟨state.live, RadixState.toList_sort hstate, rfl, rfl⟩
  next hscratch =>
      obtain ⟨state, hstate, rfl⟩ := Attempt.within_eq_ok.mp h
      exact ⟨state.live, RadixState.toList_sort hstate, rfl, rfl⟩

/-- A sort by digits is not a visit yet, even where it is broken off. -/
theorem visits_radixSort (strategy : Strategy) (w : Window n) (run : Run K V n) :
  (Attempt.state (run.radixSort strategy w)).visits = run.visits
  := by
  unfold radixSort
  split
  next scratch _ =>
      cases scratch.front w.length with
      | error => rfl
      | ok front => apply congrArg visits (Attempt.state_within _ _)
  next => apply congrArg visits (Attempt.state_within _ _)

/-- A window that is sorted by digits is visited as such. -/
theorem Sorts.visits_of_radix (h : Sorts strategy depth w run run')
    (haction : strategy.action w.length = .radix) :
  run'.visits = run.visits.push ⟨depth, w, .distributed⟩
  := by
  rw [← sort_eq_ok, sort_of_radix haction] at h
  obtain ⟨sorted, hsorted, hrun'⟩ := bind_eq_ok.mp h
  obtain rfl := Except.ok.inj hrun'
  obtain ⟨_, _, _, hvisits⟩ := radixSort_eq_ok hsorted
  rw [note, hvisits]

/-- Where the scratch, if there is any, serves a window, the pairs there are sorted by digits with
some columns to write over, and what that does to the live columns is done to the pairs. -/
theorem exists_radixSort_eq (strategy : Strategy)
    (hserved : ∀ scratch ∈ run.scratch, w.length ≤ scratch.capacity) :
  ∃ (target : Pairs K V w.length) (put : RadixState K V w.length → Run K V n),
    run.radixSort strategy w = Attempt.within put
      (RadixState.sort strategy.direction (strategy.span.passes K) ⟨run.pairs.slice w, target⟩)
    ∧ ∀ state, (put state).pairs = run.pairs.replace w state.live
      ∧ (put state).visits = run.visits
      ∧ (put state).scratch.map Scratch.capacity = run.scratch.map Scratch.capacity
  := by
  unfold radixSort
  split
  next scratch hsome =>
      obtain ⟨front, hfront⟩ := Scratch.exists_front (hserved scratch hsome)
      rw [hfront]
      refine ⟨front, _, rfl, ?_⟩
      intro state
      refine ⟨rfl, rfl, ?_⟩
      simp [hsome, Scratch.capacity_restore]
  next =>
      refine ⟨run.pairs.slice w, _, rfl, ?_⟩
      intro state
      exact ⟨rfl, rfl, rfl⟩

/-- Where the scratch, if there is any, serves a window, the pairs there are sorted by digits
exactly if all digits that are read can be read. -/
theorem exists_radixSort_iff (hlimit : n < sizeLimit)
    (hserved : ∀ scratch ∈ run.scratch, w.length ≤ scratch.capacity) :
  (∃ sorted, run.radixSort strategy w = .ok sorted)
    ↔ ∀ pair ∈ (run.pairs.slice w).toList, HasDigits (strategy.span.passes K) pair.1
  := by
  have hlength : w.length < sizeLimit := by
    have := w.fits
    omega
  obtain ⟨target, put, hradix, -⟩ := exists_radixSort_eq strategy hserved
  rw [hradix]
  constructor
  · rintro ⟨_, h⟩
    obtain ⟨state, hstate, -⟩ := Attempt.within_eq_ok.mp h
    apply (RadixState.exists_sort_iff hlength).mp ⟨state, hstate⟩
  · intro hread
    obtain ⟨state, hstate⟩ : ∃ state, RadixState.sort strategy.direction (strategy.span.passes K)
        ⟨run.pairs.slice w, target⟩ = .ok state :=
      (RadixState.exists_sort_iff hlength).mpr hread
    exact ⟨put state, Attempt.within_eq_ok.mpr ⟨state, hstate, rfl⟩⟩

/-- A window is sorted by digits if the scratch, if there is any, serves it. -/
theorem exists_radixSort [LawfulDigitKey K]
    (hlimit : n < sizeLimit)
    (hscratch : ∀ scratch ∈ run.scratch, w.length ≤ scratch.capacity) :
  ∃ sorted, run.radixSort strategy w = .ok sorted
  := by
  apply (exists_radixSort_iff hlimit hscratch).mpr
  intro pair _
  apply hasDigits_of_le strategy.span.passes_le_places

end

/-! ### What sorting a window leaves behind -/

section

variable {K V : Type} [DigitKey K] {n : Nat} {strategy : Strategy} {depth : Nat}
  {w : Window n} {run run' parted middle : Run K V n} {before behind : List (K × V)}

/-- The pairs that stand in a window are left in their arrangement, and those around it stay
where they are. -/
def Arranges (strategy : Strategy) (w : Window n) (run run' : Run K V n) : Prop :=
  ∀ (before behind : List (K × V)) (range : Pairs K V w.length),
    run.pairs.toList = before ++ range.toList ++ behind → before.length = w.offset →
    run'.pairs.toList = before ++ range.arranged strategy ++ behind

section

variable {sides : Pairs K V w.length} {pivot : Fin w.length}

/-- The two sides of a pivot may be arranged one after the other, the one before it first. -/
theorem Arranges.before_after
    (hfirst : Arranges strategy (w.before pivot) run middle)
    (hsecond : Arranges strategy (w.after pivot) middle run')
    (hlist : run.pairs.toList = before ++ sides.toList ++ behind)
    (hbefore : before.length = w.offset) :
  run'.pairs.toList = before ++ ((sides.front pivot).arranged strategy
    ++ sides.get pivot :: (sides.back pivot).arranged strategy) ++ behind
  := by
  have hmiddle : middle.pairs.toList = before ++ (sides.front pivot).arranged strategy
      ++ (sides.get pivot :: (sides.back pivot).toList ++ behind) := by
    apply hfirst before _ (sides.front pivot) _ hbefore
    rw [hlist, sides.toList_eq_front_back pivot]
    simp
    rfl
  have hoffset : (before ++ (sides.front pivot).arranged strategy ++ [sides.get pivot]).length
      = w.offset + pivot + 1 := by
    simp [hbefore, Nat.add_assoc]
  rw [List.append_cons, ← List.append_assoc before, ← List.append_assoc before]
  apply hsecond _ behind (sides.back pivot) _ hoffset
  rw [hmiddle]
  simp
  rfl

/-- The two sides of a pivot may be arranged one after the other, the one behind it first. -/
theorem Arranges.after_before
    (hfirst : Arranges strategy (w.after pivot) run middle)
    (hsecond : Arranges strategy (w.before pivot) middle run')
    (hlist : run.pairs.toList = before ++ sides.toList ++ behind)
    (hbefore : before.length = w.offset) :
  run'.pairs.toList = before ++ ((sides.front pivot).arranged strategy
    ++ sides.get pivot :: (sides.back pivot).arranged strategy) ++ behind
  := by
  have hoffset : (before ++ (sides.front pivot).toList ++ [sides.get pivot]).length
      = w.offset + pivot + 1 := by
    simp [hbefore, Nat.add_assoc]
  have hmiddle : middle.pairs.toList = before ++ (sides.front pivot).toList
      ++ [sides.get pivot] ++ (sides.back pivot).arranged strategy ++ behind := by
    apply hfirst _ behind (sides.back pivot) _ hoffset
    rw [hlist, sides.toList_eq_front_back pivot]
    simp
    rfl
  rw [← List.append_assoc before, List.append_assoc]
  apply hsecond before _ (sides.front pivot) _ hbefore
  rw [hmiddle]
  simp
  rfl

end

/-- A window that is split is arranged when both sides are, whichever of them comes first. -/
theorem Arranges.of_split {nonempty : 0 < w.length} {pivot : Fin w.length} {first second : Window n}
    (haction : strategy.action w.length = .split)
    (hparted : run.split strategy depth w nonempty = (parted, pivot))
    (hsides : first = w.before pivot ∧ second = w.after pivot
      ∨ first = w.after pivot ∧ second = w.before pivot)
    (hfirst : Arranges strategy first parted middle)
    (hsecond : Arranges strategy second middle run') :
  Arranges strategy w run run'
  := by
  intro before behind range hlist hbefore
  obtain ⟨sides, hpartition, rfl⟩ := split_eq hparted
  have hparts := Pairs.toList_replace_of_toList sides hlist hbefore
  rw [Pairs.slice_eq_of_toList hlist hbefore] at hpartition
  rw [Pairs.arranged_of_split haction hpartition]
  obtain ⟨rfl, rfl⟩ | ⟨rfl, rfl⟩ := hsides
  · apply before_after hfirst hsecond hparts hbefore
  · apply after_before hfirst hsecond hparts hbefore

/-- Sorting a window arranges its pairs. -/
theorem Sorts.arranges (h : Sorts strategy depth w run run') :
  Arranges strategy w run run'
  := by
  induction h with
  | leave haction =>
      intro before behind range hlist hbefore
      rw [Pairs.arranged_of_leave haction]
      apply hlist
  | insertion haction =>
      intro before behind range hlist hbefore
      rw [Pairs.arranged_of_insertion haction, ← Pairs.slice_eq_of_toList hlist hbefore]
      apply Pairs.toList_replace_of_toList _ hlist hbefore
  | radix haction hsorted =>
      intro before behind range hlist hbefore
      obtain ⟨sorted, htoList, hpairs, -⟩ := radixSort_eq_ok hsorted
      rw [Pairs.arranged_of_radix haction, ← Pairs.slice_eq_of_toList hlist hbefore, ← htoList]
      apply (congrArg Pairs.toList hpairs).trans
      apply Pairs.toList_replace_of_toList _ hlist hbefore
  | @split _ w run _ _ _ _ pivot haction hparted _ _ ihshorter ihlonger =>
      apply Arranges.of_split haction hparted (w.shorter_longer_cases pivot) ihshorter ihlonger

/-- What stands in a window that was arranged is the arrangement of what stood there. -/
theorem Arranges.toList_slice (h : Arranges strategy w run run') :
  (run'.pairs.slice w).toList = (run.pairs.slice w).arranged strategy
  := by
  obtain ⟨before, behind, hlist, hbefore⟩ := run.pairs.exists_toList_eq_slice w
  rw [Pairs.toList_slice, h before behind _ hlist hbefore, List.append_assoc,
    List.drop_left' hbefore]
  apply List.take_left' (Pairs.length_arranged _ _)

/-- Arranging a window does not change what stands in a window before or behind it. -/
theorem Arranges.slice_eq_of_disjoint
    {other : Window n} (h : Arranges strategy w run run')
    (hdisjoint : other.offset + other.length ≤ w.offset
      ∨ w.offset + w.length ≤ other.offset) :
  run'.pairs.slice other = run.pairs.slice other
  := by
  obtain ⟨before, behind, hlist, hbefore⟩ := run.pairs.exists_toList_eq_slice w
  apply Pairs.toList_injective
  apply List.ext_getElem?
  intro i
  rw [Pairs.toList_slice, Pairs.toList_slice, List.getElem?_take, List.getElem?_take]
  split
  next hi =>
      rw [List.getElem?_drop, List.getElem?_drop, h before behind _ hlist hbefore, hlist]
      apply getElem?_outside hbefore (Pairs.length_toList _) (Pairs.length_arranged _ _)
      omega
  next => rfl

/-- Arranging a window exchanges the pairs there, and leaves the others. -/
theorem Arranges.pairs_eq_replace (h : Arranges strategy w run run') :
  run'.pairs = run.pairs.replace w (run'.pairs.slice w)
  := by
  obtain ⟨before, behind, hlist, hbefore⟩ := run.pairs.exists_toList_eq_slice w
  apply Pairs.toList_injective
  rw [Pairs.toList_replace_of_toList _ hlist hbefore, h.toList_slice]
  apply h before behind _ hlist hbefore

/-- Where the pairs in a window have one arrangement under two strategies, they are left alike
under both. -/
theorem Arranges.pairs_eq_of_arranged_eq
    {strategy' : Strategy} {other other' : Run K V n}
    (h : Arranges strategy w run run') (h' : Arranges strategy' w other other')
    (hpairs : run.pairs = other.pairs)
    (harranged : (run.pairs.slice w).arranged strategy
      = (run.pairs.slice w).arranged strategy') :
  run'.pairs = other'.pairs
  := by
  obtain ⟨before, behind, hlist, hbefore⟩ := run.pairs.exists_toList_eq_slice w
  apply Pairs.toList_injective
  rw [h before behind _ hlist hbefore, harranged]
  symm
  apply h' before behind _ _ hbefore
  rw [← hpairs, hlist]

/-! ### The size of the scratch -/

/-- The lengths of the scratch columns, if there are any. -/
def scratchSizes (run : Run K V n) : Option (Nat × Nat) :=
  run.scratch.map Scratch.sizes

/-- A sort by digits leaves the scratch as large as it is, even where it is broken off. -/
theorem scratchSizes_radixSort (strategy : Strategy) (w : Window n) (run : Run K V n) :
  (Attempt.state (run.radixSort strategy w)).scratchSizes = run.scratchSizes
  := by
  unfold radixSort
  split
  next scratch hscratch =>
      cases scratch.front w.length with
      | error => rfl
      | ok front =>
          apply (congrArg scratchSizes (Attempt.state_within _ _)).trans
          simp [scratchSizes, hscratch, Scratch.sizes_restore]
  next => apply congrArg scratchSizes (Attempt.state_within _ _)

/-- Sorting a window leaves the scratch as large as it is, even where it is broken off. -/
theorem scratchSizes_sort (strategy : Strategy) (depth : Nat) (w : Window n) (run : Run K V n) :
  (Attempt.state (run.sort strategy depth w)).scratchSizes = run.scratchSizes
  := by
  induction depth, w, run using sort.induct (K := K) strategy with
  | case1 depth w run haction =>
      rw [sort_of_leave haction]
      rfl
  | case2 depth w run haction =>
      rw [sort_of_insertion haction]
      rfl
  | case3 depth w run haction =>
      rw [sort_of_radix haction, Attempt.measure_bind scratchSizes]
      · apply scratchSizes_radixSort
      · intro sorted
        rfl
  | case4 depth w run haction nonempty parted pivot hparted ihshorter ihlonger =>
      rw [sort_of_split haction hparted, Attempt.measure_bind scratchSizes ihlonger, ihshorter]
      obtain ⟨sides, _, rfl⟩ := split_eq hparted
      rfl

/-- Sorting a window does not change what the scratch can serve. -/
theorem Sorts.capacity (h : Sorts strategy depth w run run') :
  run'.scratch.map Scratch.capacity = run.scratch.map Scratch.capacity
  := by
  apply Scratch.map_capacity_of_sizes
  have hsizes := run.scratchSizes_sort strategy depth w
  rwa [sort_eq_ok.mpr h] at hsizes

/-! ### Runs do not fail -/

theorem exists_sorts [LawfulDigitKey K]
    (hlimit : n < sizeLimit) (depth : Nat) (w : Window n) (run : Run K V n)
    (hscratch : strategy.ServedBy w.length run.scratch) :
  ∃ run', Sorts strategy depth w run run'
  := by
  induction depth, w, run using sort.induct (K := K) strategy with
  | case1 depth w run haction => exact ⟨_, .leave haction⟩
  | case2 depth w run haction => exact ⟨_, .insertion haction⟩
  | case3 depth w run haction =>
      have hlength := Strategy.le_scratchRequired haction
      obtain ⟨sorted, hsorted⟩ := exists_radixSort hlimit
        (fun scratch hsome => hlength.trans (hscratch scratch hsome))
      exact ⟨_, .radix haction hsorted⟩
  | case4 depth w run haction nonempty parted pivot hparted ihshorter ihlonger =>
      obtain ⟨sides, _, rfl⟩ := split_eq hparted
      have hshorter := hscratch.mono (w.shorter_length_lt pivot).le
      have hlonger := hscratch.mono (w.longer_length_lt pivot).le
      obtain ⟨middle, hmiddle⟩ := ihshorter hshorter
      obtain ⟨run', hrun'⟩ := ihlonger middle (hlonger.of_capacity hmiddle.capacity)
      exact ⟨run', .split haction hparted hmiddle hrun'⟩

end

end Run

end LockstepSort
