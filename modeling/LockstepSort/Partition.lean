import LockstepSort.Direction
import LockstepSort.Pairs.Basic

/-!
# Splitting around a pivot

The pivot is the median of the first, the last and the middle key.  One scan moves the
pairs that strictly precede it to the front; the pivot then stands between these and the
others.
-/

namespace LockstepSort

/-- The position that holds the median of the keys at three positions.  Keys are compared
in ascending order, in whichever direction they are sorted. -/
def medianOfThree {K : Type} [Ord K] {n : Nat} (keys : Vector K n) (i j k : Fin n) : Fin n :=
  let a := keys.get i
  let b := keys.get j
  let c := keys.get k
  if (compare a b).isLT then
    if (compare b c).isLE then
      j
    else if (compare a c).isLT then
      k
    else
      i
  else if (compare a c).isLE then
    i
  else if (compare b c).isLT then
    k
  else
    j

namespace Pairs

variable {K V : Type} [Ord K] {n : Nat}

/-- The position of the median of the first, the last and the middle key. -/
def pivotPosition (pairs : Pairs K V n) (h : 0 < n) : Fin n :=
  medianOfThree pairs.keys ⟨0, h⟩ ⟨n - 1, by omega⟩ ⟨(n - 1) / 2, by omega⟩

/-- The scan from position `j` on: the pairs at positions `1` to `i` precede the pivot, and
each further one that does joins them.  Returns the pairs and the last of these
positions. -/
def gather (direction : Direction) (pivot : K) (pairs : Pairs K V n) (i j : Nat)
    (hij : i < j) (hj : j ≤ n) : Pairs K V n × Fin n :=
  if h : j < n then
    if direction.precedes pairs.keys[j] pivot then
      (pairs.swap ⟨i + 1, by omega⟩ ⟨j, h⟩).gather direction pivot (i + 1) (j + 1)
        (by omega) h
    else
      pairs.gather direction pivot i (j + 1) (by omega) h
  else
    (pairs, ⟨i, by omega⟩)
termination_by n - j

/-- The pairs split around the pivot, and the position of the pivot. -/
def partition (direction : Direction) (pairs : Pairs K V n) (h : 0 < n) :
    Pairs K V n × Fin n :=
  let position := pairs.pivotPosition h
  let pivot := pairs.keys.get position
  let parked := pairs.swap ⟨0, h⟩ position
  let (gathered, i) := parked.gather direction pivot 0 1 (by omega) h
  (gathered.swap ⟨0, h⟩ i, i)

end Pairs

end LockstepSort
