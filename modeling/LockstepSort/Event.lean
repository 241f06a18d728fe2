import LockstepSort.Run

/-!
# Events

What a sort writes to its log: one line when all checks have passed, and one line for each
window that is split, in the order of the splits.
-/

namespace LockstepSort

/-- The weight of a line in the log. -/
inductive Level where
  | debug
  | trace
  deriving DecidableEq, Repr

/-- The name of a level. -/
def Level.text : Level → String
  | debug => "DEBUG"
  | trace => "TRACE"

/-- A line in the log. -/
inductive Event where
  /-- A window of `length` pairs is about to be sorted. -/
  | started (length : Nat) (strategy : Strategy)
  /-- A window of `length` pairs was split around the pivot at position `pivot` of it. -/
  | split (length pivot : Nat)
  deriving DecidableEq, Repr

namespace Event

/-- The level of a line. -/
def level : Event → Level
  | started _ _ => .debug
  | split _ _ => .trace

/-- The wording of an optional limit. -/
def limitText : Option Nat → String
  | none => "None"
  | some limit => s!"Some({limit})"

/-- The wording of a line. -/
def message : Event → String
  | started length strategy =>
    s!"sorting {length} pairs {strategy.direction.text} (radix threshold "
      ++ s!"{strategy.radixLimit}, insertion cutoff {limitText strategy.insertionLimit}, "
      ++ s!"{strategy.span.text} digit passes)"
  | split length pivot => s!"partitioned {length} pairs at {pivot}"

end Event

/-- The line that a visit writes, if its window was split. -/
def Visit.event? {n : Nat} (visit : Visit n) : Option Event :=
  match visit.outcome with
  | .split pivot => some (.split visit.window.length pivot)
  | _ => none

/-- The lines that a run has written. -/
def Run.events {K V : Type} {n : Nat} (run : Run K V n) : Array Event :=
  run.visits.filterMap Visit.event?

end LockstepSort
