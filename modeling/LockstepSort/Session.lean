import LockstepSort.Call

/-!
# Sessions

A session holds two columns and the scratch that goes with them, and carries out commands
one after the other.  Where a command fails, the commands behind it are carried out all the
same.
-/

namespace LockstepSort

/-- Two columns and scratch to sort them with. -/
structure Session (K V : Type) where
  keys : Array K
  values : Array V
  scratch : Scratch K V
  deriving DecidableEq

/-- A request to a session. -/
inductive Command (K V : Type) where
  /-- Sort with ascending keys. -/
  | sort
  /-- Sort with descending keys. -/
  | sortDescending
  /-- Sort with descending keys, with the scratch of the session. -/
  | sortDescendingWith
  /-- Sort a window with ascending keys. -/
  | sortWindow (offset length : Nat)
  /-- Sort a window under a strategy, with the scratch of the session if `useScratch`. -/
  | sortWindowWith (offset length : Nat) (strategy : Strategy) (useScratch : Bool)
  /-- Sort by digits, with new scratch columns of the given lengths; a length that is not
  given is that of the keys. -/
  | radixSort (direction : Direction) (span : DigitSpan) (scratchKeys scratchValues : Option Nat)
  /-- Add elements at the end of both columns. -/
  | append (keys : Array K) (values : Array V)
  /-- Cut the columns down to the given lengths. -/
  | truncate (keys values : Nat)
  /-- Take new scratch for ranges of up to `length` elements. -/
  | newScratch (length : Nat)
  /-- Take new scratch that serves no range. -/
  | emptyScratch
  /-- Take a copy of the scratch in place of it. -/
  | copyScratch
  /-- Make the scratch serve ranges of up to `length` elements. -/
  | reserve (length : Nat)

/-- What a command leaves behind. -/
structure Report (K V : Type) where
  session : Session K V
  result : Except Failure Unit
  log : Array Event

namespace Session

variable {K V : Type}

/-- The report of a command that neither fails nor writes to the log. -/
def quiet (session : Session K V) : Report K V where
  session := session
  result := .ok ()
  log := #[]

variable [DigitKey K] [Inhabited K] [Inhabited V]

/-- The report of a call of a sort. -/
def call (session : Session K V) (call : Call K V) : Report K V :=
  let ending := call.ending session.keys session.values
  { session := ⟨ending.keys, ending.values, ending.scratch.getD session.scratch⟩
    result := ending.result
    log := ending.log }

/-- The report of a command. -/
def exec (session : Session K V) : Command K V → Report K V
  | .sort => session.call .sort
  | .sortDescending => session.call .sortDescending
  | .sortDescendingWith => session.call (.sortDescendingWith session.scratch)
  | .sortWindow offset length => session.call (.sortWindow offset length)
  | .sortWindowWith offset length strategy useScratch =>
    let scratch := if useScratch then some session.scratch else none
    session.call (.sortWindowWith strategy scratch offset length)
  | .radixSort direction span scratchKeys scratchValues =>
    let length := session.keys.size
    let spareKeys := Array.replicate (scratchKeys.getD length) default
    let spareValues := Array.replicate (scratchValues.getD length) default
    session.call (.radixSort direction span spareKeys spareValues)
  | .append keys values =>
    { session with keys := session.keys ++ keys, values := session.values ++ values }.quiet
  | .truncate keys values =>
    { session with keys := session.keys.take keys, values := session.values.take values }.quiet
  | .newScratch length => { session with scratch := .ofLength length }.quiet
  | .emptyScratch => { session with scratch := .empty }.quiet
  | .copyScratch => session.quiet
  | .reserve length => { session with scratch := session.scratch.reserve length }.quiet

/-- The reports of commands that are carried out one after the other. -/
def execAll (session : Session K V) : List (Command K V) → List (Report K V)
  | [] => []
  | command :: commands =>
    let report := session.exec command
    report :: report.session.execAll commands

end Session

end LockstepSort
