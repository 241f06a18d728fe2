import LockstepSort.Session

/-!
# Shared scratch

Requests for sorts of different columns, carried out one after the other with the same
scratch.  Each finds the scratch as the one before it has left it.
-/

namespace LockstepSort

/-- A command to be carried out on two columns of its own. -/
structure Request (K V : Type) where
  keys : Array K
  values : Array V
  command : Command K V

/-- The same command, if it uses the scratch, without it. -/
def Command.withoutScratch {K V : Type} : Command K V → Command K V
  | .sortDescendingWith => .sortDescending
  | .sortWindowWith offset length strategy _ => .sortWindowWith offset length strategy false
  | command => command

/-- Whether a command was turned down because the scratch is too small for it. -/
def Report.lacksScratch {K V : Type} (report : Report K V) : Bool :=
  match report.result with
  | .error (.rejected (.scratchTooSmall _ _)) => true
  | _ => false

namespace Request

variable {K V : Type}

/-- The same request without the scratch. -/
def withoutScratch (request : Request K V) : Request K V :=
  { request with command := request.command.withoutScratch }

variable [DigitKey K] [Inhabited K] [Inhabited V]

/-- The report of a request that is carried out with the scratch. -/
def report (request : Request K V) (scratch : Scratch K V) : Report K V :=
  Session.exec ⟨request.keys, request.values, scratch⟩ request.command

/-- The reports of requests that are carried out one after the other. -/
def reports (scratch : Scratch K V) : List (Request K V) → List (Report K V)
  | [] => []
  | request :: requests =>
    let report := request.report scratch
    report :: reports report.session.scratch requests

/-- The requests with the scratch withdrawn from those that `spare` chooses by their reports.
A request for which the scratch is too small is left as it is. -/
def sparing (spare : Report K V → Bool) (scratch : Scratch K V) :
    List (Request K V) → List (Request K V)
  | [] => []
  | request :: requests =>
    let report := request.report scratch
    let spared := spare report && !report.lacksScratch
    (if spared then request.withoutScratch else request)
      :: sparing spare report.session.scratch requests

end Request

end LockstepSort
