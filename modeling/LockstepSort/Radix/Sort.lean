import LockstepSort.Radix.Distribution
import LockstepSort.Strategy

/-!
# Sorting by digits

The pairs are distributed by each digit in turn, the lowest first, to and fro between the
live columns and the scratch columns.  After an odd number of passes the result lies in the
scratch columns and is copied back.
-/

namespace LockstepSort

/-- The live columns and the scratch columns of a sort by digits. -/
structure RadixState (K V : Type) (n : Nat) where
  live : Pairs K V n
  scratch : Pairs K V n

namespace RadixState

variable {K V : Type} [DigitKey K] {n : Nat}

/-- The columns after the pass on the digit at a place. -/
def pass (direction : Direction) (state : RadixState K V n) (place : Nat) :
    Attempt (RadixState K V n) (RadixState K V n) :=
  if place % 2 = 0 then
    Attempt.within (fun filled => { state with scratch := filled })
      (state.live.distribute direction place state.scratch)
  else
    Attempt.within (fun filled => { state with live := filled })
      (state.scratch.distribute direction place state.live)

/-- The columns after the passes on the lowest `passes` digits, with the result in the live
columns. -/
def sort (direction : Direction) (passes : Nat) (state : RadixState K V n) :
    Attempt (RadixState K V n) (RadixState K V n) := do
  let state ← (List.range passes).foldlM (pass direction) state
  if passes % 2 = 0 then
    return state
  else
    return { state with live := state.scratch }

end RadixState

/-- The columns `keys` and `values` sorted by digits, with scratch columns whose contents do
not matter.  All columns have to be as long as the keys; the first that is not, of the
values, the scratch keys and the scratch values, is reported. -/
def radixSort {K V : Type} [DigitKey K] (direction : Direction) (span : DigitSpan)
    (keys : Array K) (values : Array V) (scratchKeys : Array K) (scratchValues : Array V) :
    Attempt (Array K × Array V) (Array K × Array V) :=
  let refuse (column : Column) (actual : Nat) : Attempt (Array K × Array V) _ :=
    .error ⟨.unequalLengths column actual keys.size, (keys, values)⟩
  match Pairs.ofArrays? keys values with
  | none => refuse .values values.size
  | some live =>
    if hkeys : scratchKeys.size = keys.size then
      if hvalues : scratchValues.size = keys.size then
        let scratch : Pairs K V keys.size :=
          ⟨⟨scratchKeys, hkeys⟩, ⟨scratchValues, hvalues⟩⟩
        Attempt.within (fun state => (state.live.keys.toArray, state.live.values.toArray))
          (RadixState.sort direction (span.passes K) ⟨live, scratch⟩)
      else
        refuse .scratchValues scratchValues.size
    else
      refuse .scratchKeys scratchKeys.size

end LockstepSort
