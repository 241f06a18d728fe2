import LockstepSort.Event

/-!
# Recursion

A window that is split has two sides left to be sorted.  `Run.sort` has a nested call sort the
shorter one first, and goes on with the longer one itself.  A plan is any way to do this: it
chooses the side that comes first, and says whether the other one is left to a nested call too.
`Run.sortBy` sorts a window by a plan; the plainest one has both sides sorted by nested calls, in
the order in which they stand.
-/

namespace LockstepSort

/-- A way to go on with the two sides of a window that was split. -/
structure Plan where
  /-- Whether the side before the pivot comes first, for the length of a window and the position
  of the pivot in it. -/
  beforeFirst : Nat → Nat → Bool
  /-- Whether the side that comes second is left to a nested call. -/
  nestsSecond : Bool

namespace Plan

/-- Nested calls sort both sides, first the one before the pivot. -/
def plain : Plan := ⟨fun _ _ => true, true⟩

/-- Nested calls sort both sides, first the one behind the pivot. -/
def mirrored : Plan := ⟨fun _ _ => false, true⟩

/-- A nested call sorts the shorter side first, of two that are equally long the one behind the
pivot, and the call goes on with the longer one. -/
def shorterFirst : Plan := ⟨fun length pivot => decide (pivot < length - pivot - 1), false⟩

variable {n : Nat}

/-- The side that comes first. -/
def first (plan : Plan) (w : Window n) (pivot : Fin w.length) : Window n :=
  if plan.beforeFirst w.length pivot then w.before pivot else w.after pivot

/-- The other side. -/
def second (plan : Plan) (w : Window n) (pivot : Fin w.length) : Window n :=
  if plan.beforeFirst w.length pivot then w.after pivot else w.before pivot

/-- The depth of the call that sorts the side that comes second, for the depth of the call that
split the window. -/
def depthOfSecond (plan : Plan) (depth : Nat) : Nat :=
  if plan.nestsSecond then depth + 1 else depth

/-- One of the two sides comes first and the other one second. -/
theorem first_second_cases (plan : Plan) (w : Window n) (pivot : Fin w.length) :
  plan.first w pivot = w.before pivot ∧ plan.second w pivot = w.after pivot
    ∨ plan.first w pivot = w.after pivot ∧ plan.second w pivot = w.before pivot
  := by
  unfold first second
  split
  · left
    constructor <;> rfl
  · right
    constructor <;> rfl

theorem first_length_lt (plan : Plan) (w : Window n) (pivot : Fin w.length) :
  (plan.first w pivot).length < w.length
  := by
  obtain ⟨h, -⟩ | ⟨h, -⟩ := plan.first_second_cases w pivot <;> rw [h]
  · apply Window.before_length_lt
  · apply Window.after_length_lt

theorem second_length_lt (plan : Plan) (w : Window n) (pivot : Fin w.length) :
  (plan.second w pivot).length < w.length
  := by
  obtain ⟨-, h⟩ | ⟨-, h⟩ := plan.first_second_cases w pivot <;> rw [h]
  · apply Window.after_length_lt
  · apply Window.before_length_lt

end Plan

/-- The run after the pairs in a window are sorted by a plan, by a call at nesting depth
`depth`. -/
def Run.sortBy {K V : Type} [DigitKey K] {n : Nat} (plan : Plan) (strategy : Strategy)
    (depth : Nat) (w : Window n) (run : Run K V n) : Attempt (Run K V n) (Run K V n) :=
  match h : strategy.action w.length with
  | .leave => return run.note depth w .left
  | .insertion => return (run.insertionSort strategy w).note depth w .inserted
  | .radix => return (← run.radixSort strategy w).note depth w .distributed
  | .split =>
    have nonempty : 0 < w.length := Nat.lt_of_succ_lt (Strategy.one_lt_of_action_split h)
    let (run, pivot) := run.split strategy depth w nonempty
    do
      let run ← run.sortBy plan strategy (depth + 1) (plan.first w pivot)
      run.sortBy plan strategy (plan.depthOfSecond depth) (plan.second w pivot)
termination_by w.length
decreasing_by
  · apply Plan.first_length_lt
  · apply Plan.second_length_lt

end LockstepSort
