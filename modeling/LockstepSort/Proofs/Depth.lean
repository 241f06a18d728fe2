import LockstepSort.Proofs.Tiling

/-!
# Nesting depth

The visits of a call come in the order in which it works: a window that is split is followed by
the visits of the nested call that sorts its shorter side, and these by those of the longer side,
with which the call itself goes on.  With one position more counted, the shorter side is at most
half as long as the window, so each level of depth halves the windows, wherever the pivots fall.
-/

namespace LockstepSort

/-! ### The lengths of the two sides -/

namespace Window

variable {n : Nat}

/-- The shorter side of a split is less than half as long as the window. -/
theorem two_mul_shorter_length_lt (w : Window n) (pivot : Fin w.length) :
  2 * (w.shorter pivot).length < w.length
  := by
  have := pivot.isLt
  unfold shorter
  split <;> simp only [before, after] at * <;> omega

end Window

/-! ### The visits of a call -/

section

variable {n : Nat} {strategy : Strategy} {depth : Nat} {w : Window n} {visit : Visit n}
  {visits front behind : List (Visit n)} {pivot : Nat}

/-- The visits of a call at nesting depth `depth`, from the window `w` on until it returns. -/
inductive Itinerary (strategy : Strategy) : Nat → Window n → List (Visit n) → Prop where
  | leaf (visit : Visit n) (h : visit.outcome.action = strategy.action visit.window.length)
      (hleaf : visit.IsLeaf) :
    Itinerary strategy visit.depth visit.window [visit]
  | split {depth : Nat} {w : Window n} {pivot : Fin w.length} {nested rest : List (Visit n)}
      (h : strategy.action w.length = .split)
      (hnested : Itinerary strategy (depth + 1) (w.shorter pivot) nested)
      (hrest : Itinerary strategy depth (w.longer pivot) rest) :
    Itinerary strategy depth w (⟨depth, w, .split pivot⟩ :: (nested ++ rest))

namespace Itinerary

/-- The first visit of a call is that of the window that the call is for. -/
theorem exists_eq_cons (h : Itinerary strategy depth w visits) :
  ∃ outcome rest, visits = ⟨depth, w, outcome⟩ :: rest
  := by
  cases h with
  | leaf => exact ⟨_, _, rfl⟩
  | split => exact ⟨_, _, rfl⟩

/-- A call visits no window at a smaller depth than its own. -/
theorem depth_le (h : Itinerary strategy depth w visits) (hvisit : visit ∈ visits) :
  depth ≤ visit.depth
  := by
  induction h with
  | leaf =>
      obtain rfl := List.mem_singleton.mp hvisit
      apply Nat.le_refl
  | split _ _ _ ihnested ihrest =>
      obtain rfl | hmem := List.mem_cons.mp hvisit
      · apply Nat.le_refl
      · obtain hmem | hmem := List.mem_append.mp hmem
        · apply Nat.le_of_succ_le (ihnested hmem)
        · apply ihrest hmem

/-- With one position more counted, each level of depth halves the windows. -/
theorem length_mul_two_pow_le (h : Itinerary strategy depth w visits) (hvisit : visit ∈ visits) :
  (visit.window.length + 1) * 2 ^ visit.depth ≤ (w.length + 1) * 2 ^ depth
  := by
  induction h with
  | leaf =>
      obtain rfl := List.mem_singleton.mp hvisit
      apply Nat.le_refl
  | @split depth w pivot _ _ _ _ _ ihnested ihrest =>
      obtain rfl | hmem := List.mem_cons.mp hvisit
      · apply Nat.le_refl
      · obtain hmem | hmem := List.mem_append.mp hmem
        · have hhalf : ((w.shorter pivot).length + 1) * 2 ≤ w.length + 1 := by
            have := w.two_mul_shorter_length_lt pivot
            omega
          calc (visit.window.length + 1) * 2 ^ visit.depth
            _ ≤ ((w.shorter pivot).length + 1) * 2 ^ (depth + 1) := ihnested hmem
            _ = ((w.shorter pivot).length + 1) * 2 * 2 ^ depth := by
              rw [Nat.pow_succ', Nat.mul_assoc]
            _ ≤ (w.length + 1) * 2 ^ depth := Nat.mul_le_mul_right _ hhalf
        · apply (ihrest hmem).trans
          apply Nat.mul_le_mul_right
          have := w.longer_length_lt pivot
          omega

/-- A visit of a split is followed by those of the nested call for the shorter side, and these by
that of the longer side in the same call. -/
theorem exists_of_split (h : Itinerary strategy depth w visits)
    (hvisits : visits = front ++ visit :: behind) (hsplit : visit.outcome = .split pivot) :
  ∃ (hpivot : pivot < visit.window.length) (outcome outcome' : Outcome)
    (nested rest : List (Visit n)),
    behind = ⟨visit.depth + 1, visit.window.shorter ⟨pivot, hpivot⟩, outcome⟩ :: nested
      ++ ⟨visit.depth, visit.window.longer ⟨pivot, hpivot⟩, outcome'⟩ :: rest
    ∧ ∀ call ∈ nested, visit.depth < call.depth
  := by
  induction h generalizing front behind with
  | leaf _ _ hleaf =>
      obtain ⟨rfl, hbehind⟩ | ⟨_, _, hnil⟩ := List.append_eq_cons_iff.mp hvisits.symm
      · obtain ⟨rfl, -⟩ := List.cons.inj hbehind
        apply absurd hsplit (hleaf pivot)
      · simp at hnil
  | @split depth w pivot' nested rest _ hnested hrest ihnested ihrest =>
      obtain ⟨rfl, hbehind⟩ | ⟨front', rfl, hlist⟩ := List.append_eq_cons_iff.mp hvisits.symm
      · obtain ⟨rfl, rfl⟩ := List.cons.inj hbehind
        obtain rfl := Outcome.split.inj hsplit
        obtain ⟨outcome, nested, rfl⟩ := hnested.exists_eq_cons
        obtain ⟨outcome', rest, rfl⟩ := hrest.exists_eq_cons
        refine ⟨pivot'.isLt, outcome, outcome', nested, rest, rfl, ?_⟩
        intro call hcall
        apply hnested.depth_le (List.mem_cons_of_mem _ hcall)
      · obtain ⟨middle, -, hrest'⟩ | ⟨middle, hnested', hbehind⟩ :=
          List.append_eq_append_iff.mp hlist
        · apply ihrest hrest'
        · obtain ⟨-, hrest'⟩ | ⟨middle', rfl, rfl⟩ := List.cons_eq_append_iff.mp hbehind
          · apply @ihrest [] behind hrest'
          · -- The call that the nested visits are of returns before the rest is visited.
            obtain ⟨hpivot, outcome, outcome', inner, rest', rfl, hinner⟩ :=
              ihnested hnested'
            refine ⟨hpivot, outcome, outcome', inner, rest' ++ rest, ?_, hinner⟩
            simp

end Itinerary

end

section

variable {K V : Type} [DigitKey K] {n : Nat}

/-- The visits that a call pays are its itinerary. -/
theorem Run.Sorts.exists_itinerary {strategy : Strategy} {depth : Nat} {w : Window n}
    {run run' : Run K V n}
    (h : Sorts strategy depth w run run') :
  ∃ visits, run'.visits.toList = run.visits.toList ++ visits
    ∧ Itinerary strategy depth w visits
  := by
  induction h with
  | @leave depth w run haction =>
      exact ⟨_, Array.toList_push, .leaf ⟨depth, w, .left⟩ haction.symm nofun⟩
  | @insertion depth w run haction =>
      exact ⟨_, Array.toList_push, .leaf ⟨depth, w, .inserted⟩ haction.symm nofun⟩
  | @radix depth w run sorted haction hsorted =>
      obtain ⟨_, _, _, hvisits⟩ := radixSort_eq_ok hsorted
      rw [← hvisits]
      exact ⟨_, Array.toList_push, .leaf ⟨depth, w, .distributed⟩ haction.symm nofun⟩
  | @split depth w run parted middle run' nonempty pivot haction hparted _ _ ihshorter ihlonger =>
      obtain ⟨nested, hnested, hshorter⟩ := ihshorter
      obtain ⟨rest, hrest, hlonger⟩ := ihlonger
      obtain ⟨sides, -, rfl⟩ := split_eq hparted
      refine ⟨⟨depth, w, .split pivot⟩ :: (nested ++ rest), ?_, .split haction hshorter hlonger⟩
      rw [hrest, hnested]
      simp [note, replace]

/-- With one position more counted, windows are halved `d` times before a call at depth `d` takes
them up, so depths are at most logarithmic, wherever the pivots fall.  A window that is split is
followed by the visits of a nested call for its shorter side, and these by that of its longer side,
with which the call itself goes on and which is shorter than the window. -/
theorem nested_calls_halve_their_windows (strategy : Strategy) (w : Window n)
    (pairs : Pairs K V n) (scratch : Option (Scratch K V)) :
  let start := Run.start pairs scratch
  (∀ [LawfulDigitKey K], n < sizeLimit → strategy.ServedBy w.length scratch →
    ∃ run, start.sort strategy 0 w = .ok run)
  ∧ ∀ run, start.sort strategy 0 w = .ok run →
    (∀ visit ∈ run.visits, (visit.window.length + 1) * 2 ^ visit.depth ≤ w.length + 1
      ∧ visit.depth ≤ Nat.log2 (w.length + 1))
    ∧ ∀ front visit behind pivot, run.visits.toList = front ++ visit :: behind →
      visit.outcome = .split pivot →
      ∃ (hpivot : pivot < visit.window.length) (call next : Visit n) (nested rest : List (Visit n)),
        behind = call :: nested ++ next :: rest
        ∧ call.depth = visit.depth + 1 ∧ call.window = visit.window.shorter ⟨pivot, hpivot⟩
        ∧ (∀ inner ∈ nested, visit.depth < inner.depth)
        ∧ next.depth = visit.depth ∧ next.window = visit.window.longer ⟨pivot, hpivot⟩
        ∧ next.window.length < visit.window.length
  := by
  intro start
  constructor
  · intro _ hlimit hserved
    obtain ⟨run, hrun⟩ := Run.exists_sorts hlimit 0 w start hserved
    exact ⟨run, Run.sort_eq_ok.mpr hrun⟩
  · intro run hrun
    obtain ⟨visits, hvisits, hitinerary⟩ := (Run.sort_eq_ok.mp hrun).exists_itinerary
    obtain rfl : run.visits.toList = visits := hvisits
    constructor
    · intro visit hvisit
      have hlength := hitinerary.length_mul_two_pow_le (Array.mem_toList_iff.mpr hvisit)
      rw [Nat.pow_zero, Nat.mul_one] at hlength
      refine ⟨hlength, (Nat.le_log2 (Nat.succ_ne_zero _)).mpr ?_⟩
      apply Nat.le_trans _ hlength
      apply Nat.le_mul_of_pos_left _ (Nat.succ_pos _)
    · intro front visit behind pivot hlist hsplit
      obtain ⟨hpivot, outcome, outcome', nested, rest, hbehind, hnested⟩ :=
        hitinerary.exists_of_split hlist hsplit
      refine ⟨hpivot, _, _, nested, rest, hbehind, rfl, rfl, hnested, rfl, rfl, ?_⟩
      apply Window.longer_length_lt

end

/-- Of equal keys the first one is the pivot, so that every split leaves nothing before it; still,
the windows behind the pivots are sorted by one call. -/
theorem equal_keys_nest_once :
  let strategy : Strategy := ⟨.descending, 1, none, .full⟩
  let pairs : Pairs UInt32 String 3 := ⟨#v[7, 7, 7], #v["a", "b", "c"]⟩
  ∃ run, (Run.start pairs none).sort strategy 0 (.whole 3) = .ok run
    ∧ (∀ visit ∈ run.visits, visit.depth ≤ 2)
    ∧ ∃ next ∈ run.visits, next.depth = 0 ∧ next.window = ⟨1, 2, by decide⟩
  := by
  intro strategy pairs
  have hvisits : (Attempt.state ((Run.start pairs none).sort strategy 0 (.whole 3))).visits.toList
      = [⟨0, .whole 3, .split 0⟩, ⟨1, ⟨0, 0, by decide⟩, .left⟩, ⟨0, ⟨1, 2, by decide⟩, .split 0⟩,
        ⟨1, ⟨1, 0, by decide⟩, .left⟩, ⟨0, ⟨2, 1, by decide⟩, .left⟩] := by
    decide +kernel
  obtain ⟨hends, hruns⟩ := nested_calls_halve_their_windows strategy (.whole 3) pairs none
  obtain ⟨run, hrun⟩ := hends (by decide) (by rintro s ⟨⟩)
  obtain ⟨hdepth, hsplit⟩ := hruns run hrun
  rw [hrun] at hvisits
  obtain ⟨_, _, next, nested, rest, hbehind, -, -, -, hnext, hwindow, -⟩ :=
    hsplit [] _ _ 0 hvisits rfl
  refine ⟨run, hrun, fun visit hvisit => (hdepth visit hvisit).2, next, ?_, hnext, hwindow⟩
  rw [← Array.mem_toList_iff, show run.visits.toList = _ from hvisits, hbehind]
  simp

end LockstepSort
