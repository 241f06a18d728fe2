import LockstepSort.Event

/-!
# Sorts

The sorts of two columns given as arrays.  `sortWindowWith` is the general one, and the
others choose its window, its strategy and its scratch.  The checks come before anything
else, in a fixed order: the lengths of the columns, the window, the scratch, the signs of
the keys in the window.
-/

namespace LockstepSort

/-- What a sort ends with, whether or not it was carried out. -/
structure Ending (K V : Type) where
  keys : Array K
  values : Array V
  /-- The scratch, if there is any. -/
  scratch : Option (Scratch K V)
  log : Array Event
  result : Except Failure Unit

/-- The two columns as pairs. -/
def pairUp {K V : Type} (keys : Array K) (values : Array V) :
    Except Rejection (Pairs K V keys.size) :=
  match Pairs.ofArrays? keys values with
  | some pairs => .ok pairs
  | none => .error (.lengthMismatch keys.size values.size)

/-- The window of `length` positions from `offset` on among `n`. -/
def windowAt (offset length n : Nat) : Except Rejection (Window n) :=
  match Window.of? offset length n with
  | some w => .ok w
  | none => .error (.rangeOutOfBounds offset length n)

/-- Passes when the scratch, if there is any, serves every window of `length` pairs. -/
def checkScratch {K V : Type} (strategy : Strategy) (scratch : Option (Scratch K V))
    (length : Nat) : Except Rejection Unit :=
  match scratch with
  | none => .ok ()
  | some scratch =>
    let required := strategy.scratchRequired length
    if scratch.capacity < required then
      .error (.scratchTooSmall required scratch.capacity)
    else
      .ok ()

/-- Passes when no key is negative. -/
def checkSigns {K : Type} [DigitKey K] {n : Nat} (keys : Vector K n) : Except Fault Unit :=
  if keys.any DigitKey.isNegative then .error .negativeKeys else .ok ()

section

variable {K V : Type} [DigitKey K]

/-- The pairs of a request and the window in which they are to be sorted, once all checks
have passed. -/
def checked (strategy : Strategy) (scratch : Option (Scratch K V)) (keys : Array K)
    (values : Array V) (offset length : Nat) :
    Except Failure (Pairs K V keys.size × Window keys.size) := do
  let pairs ← (pairUp keys values).mapError .rejected
  let w ← (windowAt offset length keys.size).mapError .rejected
  (checkScratch strategy scratch length).mapError .rejected
  (checkSigns (pairs.slice w).keys).mapError .faulted
  return (pairs, w)

/-- The pairs sorted in a window, under a strategy, with the scratch if there is any. -/
def Pairs.sortWindow {n : Nat} (strategy : Strategy) (w : Window n)
    (scratch : Option (Scratch K V)) (pairs : Pairs K V n) : Ending K V :=
  let attempt := (Run.start pairs scratch).sort strategy 0 w
  let run := Attempt.state attempt
  { keys := run.pairs.keys.toArray
    values := run.pairs.values.toArray
    scratch := run.scratch
    log := #[.started w.length strategy] ++ run.events
    result := (Attempt.result attempt).mapError .faulted }

/-- The columns sorted in the window of `length` positions from `offset` on, under a
strategy, with the scratch if there is any. -/
def sortWindowWith (strategy : Strategy) (scratch : Option (Scratch K V)) (keys : Array K)
    (values : Array V) (offset length : Nat) : Ending K V :=
  match checked strategy scratch keys values offset length with
  | .ok (pairs, w) => pairs.sortWindow strategy w scratch
  | .error failure => ⟨keys, values, scratch, #[], .error failure⟩

/-- The columns sorted in a window, with ascending keys. -/
def sortWindow (keys : Array K) (values : Array V) (offset length : Nat) : Ending K V :=
  sortWindowWith (.forKeys K .ascending) none keys values offset length

/-- The columns sorted, with ascending keys. -/
def sort (keys : Array K) (values : Array V) : Ending K V :=
  sortWindow keys values 0 keys.size

/-- The columns sorted, with descending keys. -/
def sortDescending (keys : Array K) (values : Array V) : Ending K V :=
  sortWindowWith (.forKeys K .descending) none keys values 0 keys.size

/-- The columns sorted with the scratch, with descending keys. -/
def sortDescendingWith (scratch : Scratch K V) (keys : Array K) (values : Array V) :
    Ending K V :=
  sortWindowWith (.forKeys K .descending) (some scratch) keys values 0 keys.size

end

end LockstepSort
