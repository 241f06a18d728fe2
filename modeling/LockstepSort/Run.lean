import LockstepSort.Insertion
import LockstepSort.Partition
import LockstepSort.Radix.Sort
import LockstepSort.Scratch

/-!
# Runs

A run sorts the pairs in a window.  A window that is too long to be sorted at once is split
around a pivot; the shorter side is sorted by a nested call, and the same call goes on with
the longer one, so calls nest no deeper than the halvings of the window.  A run keeps the
visits it paid: each window it took up, the depth of the call that did, and what became of
the window.
-/

namespace LockstepSort

/-- What becomes of a window. -/
inductive Outcome where
  /-- The window is left as it is. -/
  | left
  /-- The window is sorted by insertion. -/
  | inserted
  /-- The window is sorted by digits. -/
  | distributed
  /-- The window is split around its pivot, which ends up at position `pivot` of it. -/
  | split (pivot : Nat)
  deriving DecidableEq, Repr

/-- A window that a run took up. -/
structure Visit (n : Nat) where
  /-- The number of calls around the one that took up the window. -/
  depth : Nat
  /-- The window. -/
  window : Window n
  /-- What became of the window. -/
  outcome : Outcome
  deriving DecidableEq, Repr

/-- The state of a run: the pairs, the scratch to be used if there is any, and the visits
so far. -/
structure Run (K V : Type) (n : Nat) where
  pairs : Pairs K V n
  scratch : Option (Scratch K V)
  visits : Array (Visit n)

namespace Run

variable {K V : Type} {n : Nat}

/-- A run that has not visited any window. -/
def start (pairs : Pairs K V n) (scratch : Option (Scratch K V)) : Run K V n :=
  ⟨pairs, scratch, #[]⟩

/-- The run with one more visit. -/
def note (run : Run K V n) (depth : Nat) (w : Window n) (outcome : Outcome) : Run K V n :=
  { run with visits := run.visits.push ⟨depth, w, outcome⟩ }

/-- The run with the pairs in a window replaced. -/
def replace (run : Run K V n) (w : Window n) (range : Pairs K V w.length) : Run K V n :=
  { run with pairs := run.pairs.replace w range }

variable [DigitKey K]

/-- The run after the pairs in a window are sorted by insertion. -/
def insertionSort (strategy : Strategy) (w : Window n) (run : Run K V n) : Run K V n :=
  run.replace w ((run.pairs.slice w).insertionSort strategy.direction)

/-- The run after the pairs in a window are sorted by digits, with the front of the scratch
or else with columns of their own to write over. -/
def radixSort (strategy : Strategy) (w : Window n) (run : Run K V n) :
    Attempt (Run K V n) (Run K V n) :=
  let range := run.pairs.slice w
  let passes := strategy.span.passes K
  match run.scratch with
  | some scratch => do
    let front ← Attempt.ask run (scratch.front w.length)
    Attempt.within
      (fun sorted =>
        { run.replace w sorted.live with scratch := some (scratch.restore sorted.scratch) })
      (RadixState.sort strategy.direction passes ⟨range, front⟩)
  | none =>
    Attempt.within (fun sorted => run.replace w sorted.live)
      (RadixState.sort strategy.direction passes ⟨range, range⟩)

/-- The run after a window is split around its pivot by a call at nesting depth `depth`, and
the position of the pivot in the window. -/
def split (strategy : Strategy) (depth : Nat) (w : Window n) (nonempty : 0 < w.length)
    (run : Run K V n) : Run K V n × Fin w.length :=
  let (range, pivot) := (run.pairs.slice w).partition strategy.direction nonempty
  ((run.replace w range).note depth w (.split pivot), pivot)

/-- The run after the pairs in a window are sorted, by a call at nesting depth `depth`.  A
nested call sorts the shorter side of a split, and the call goes on with the longer one. -/
def sort (strategy : Strategy) (depth : Nat) (w : Window n) (run : Run K V n) :
    Attempt (Run K V n) (Run K V n) :=
  match h : strategy.action w.length with
  | .leave => return run.note depth w .left
  | .insertion => return (run.insertionSort strategy w).note depth w .inserted
  | .radix => return (← run.radixSort strategy w).note depth w .distributed
  | .split =>
    have nonempty : 0 < w.length := Nat.lt_of_succ_lt (Strategy.one_lt_of_action_split h)
    let (run, pivot) := run.split strategy depth w nonempty
    do
      let run ← run.sort strategy (depth + 1) (w.shorter pivot)
      run.sort strategy depth (w.longer pivot)
termination_by w.length
decreasing_by
  · apply Window.shorter_length_lt
  · apply Window.longer_length_lt

end Run

end LockstepSort
