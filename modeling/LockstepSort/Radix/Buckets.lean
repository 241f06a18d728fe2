import LockstepSort.Direction
import LockstepSort.Key.Basic
import LockstepSort.Window

/-!
# Buckets

One number for each value of a digit.  The numbers first count the keys of each bucket;
running sums turn the counts into the positions where the buckets start, and each pair
that is placed moves the position of its bucket on by one.
-/

namespace LockstepSort

/-- A number for each value of a digit. -/
abbrev Buckets := Vector Nat bucketCount

/-- The values of a digit in the order in which their buckets follow one another. -/
def Direction.bucketOrder : Direction → List (Fin bucketCount)
  | ascending => List.finRange bucketCount
  | descending => (List.finRange bucketCount).reverse

namespace Buckets

/-- The bucket of a digit. -/
def ofDigit (digit : UInt8) : Fin bucketCount :=
  ⟨digit.toNat, digit.toNat_lt⟩

/-- No key in any bucket. -/
def empty : Buckets := Vector.replicate bucketCount 0

/-- The sum of two counts, if it can be counted. -/
def countSum (a b : Nat) : Except Fault Nat :=
  if a + b < sizeLimit then .ok (a + b) else .error .countOverflow

/-- The numbers with that of one bucket replaced. -/
def put (buckets : Buckets) (bucket : Fin bucketCount) (number : Nat) : Buckets :=
  buckets.set bucket number

/-- The numbers with that of one bucket increased by one. -/
def advance (buckets : Buckets) (bucket : Fin bucketCount) : Except Fault Buckets := do
  let number ← countSum (buckets.get bucket) 1
  return buckets.put bucket number

/-- The number of keys in each bucket. -/
def counts {K : Type} [DigitKey K] (place : Nat) (keys : List K) : Except Fault Buckets :=
  keys.foldlM
    (fun buckets key => do
      let digit ← DigitKey.digit key place
      buckets.advance (ofDigit digit))
    empty

/-- One step of the running sums: the sum so far, which takes the place of the count of
`bucket`, grows by that count. -/
def chain (state : Nat × Buckets) (bucket : Fin bucketCount) :
    Except Fault (Nat × Buckets) := do
  let sum ← countSum state.1 (state.2.get bucket)
  return (sum, state.2.put bucket state.1)

/-- The position where each bucket starts, from the number of keys in each. -/
def starts (direction : Direction) (counts : Buckets) : Except Fault Buckets := do
  let (_, starts) ← direction.bucketOrder.foldlM chain (0, counts)
  return starts

end Buckets

end LockstepSort
