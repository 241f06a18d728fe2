import LockstepSort.Direction
import LockstepSort.Pairs.Basic

/-!
# Sorting by insertion

Each pair in turn sinks past the pairs it precedes.  A pair never passes one that it does
not strictly precede, so pairs with equal keys keep their order.
-/

namespace LockstepSort.Pairs

variable {K V : Type} [Ord K] {n : Nat}

/-- The pairs after the one at position `i` has moved down past those it precedes. -/
def sink (direction : Direction) (pairs : Pairs K V n) (i : Nat) (h : i < n) : Pairs K V n :=
  match i with
  | 0 => pairs
  | i + 1 =>
    if direction.precedes pairs.keys[i + 1] pairs.keys[i] then
      (pairs.swap ⟨i + 1, h⟩ ⟨i, by omega⟩).sink direction i (by omega)
    else
      pairs

/-- The pairs sorted by insertion. -/
def insertionSort (direction : Direction) (pairs : Pairs K V n) : Pairs K V n :=
  n.fold (fun i h sorted => sorted.sink direction i h) pairs

end LockstepSort.Pairs
