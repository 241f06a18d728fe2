import LockstepSort.Sort

/-!
# Calls

A call of one of the sorts, with everything that the sort takes besides the two columns.
Calls that are carried out one after the other work on the columns that the call before them
left behind, whether or not it failed.
-/

namespace LockstepSort

/-- A call of a sort. -/
inductive Call (K V : Type) where
  /-- Sort with ascending keys. -/
  | sort
  /-- Sort with descending keys. -/
  | sortDescending
  /-- Sort with descending keys and with scratch. -/
  | sortDescendingWith (scratch : Scratch K V)
  /-- Sort a window with ascending keys. -/
  | sortWindow (offset length : Nat)
  /-- Sort a window under a strategy, with scratch if there is any. -/
  | sortWindowWith (strategy : Strategy) (scratch : Option (Scratch K V))
      (offset length : Nat)
  /-- Sort by digits, with scratch columns. -/
  | radixSort (direction : Direction) (span : DigitSpan) (scratchKeys : Array K)
      (scratchValues : Array V)

namespace Call

variable {K V : Type} [DigitKey K]

/-- What a call ends with. -/
def ending (keys : Array K) (values : Array V) : Call K V → Ending K V
  | sort => LockstepSort.sort keys values
  | sortDescending => LockstepSort.sortDescending keys values
  | sortDescendingWith scratch => LockstepSort.sortDescendingWith scratch keys values
  | sortWindow offset length => LockstepSort.sortWindow keys values offset length
  | sortWindowWith strategy scratch offset length =>
    LockstepSort.sortWindowWith strategy scratch keys values offset length
  | radixSort direction span scratchKeys scratchValues =>
    let attempt := LockstepSort.radixSort direction span keys values scratchKeys scratchValues
    let (keys, values) := Attempt.state attempt
    { keys := keys
      values := values
      scratch := none
      log := #[]
      result := (Attempt.result attempt).mapError .faulted }

/-- The columns that calls leave behind when they are carried out one after the other. -/
def columnsAfter (keys : Array K) (values : Array V) : List (Call K V) → Array K × Array V
  | [] => (keys, values)
  | call :: calls =>
    let ending := call.ending keys values
    columnsAfter ending.keys ending.values calls

end Call

end LockstepSort
