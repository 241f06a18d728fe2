import LockstepSort.Attempt
import LockstepSort.Pairs.Basic
import LockstepSort.Radix.Buckets

/-!
# Distribution by a digit

The pairs of one pair of columns are laid down in another, bucket after bucket, by the
digit of their keys at one place.  Pairs of one bucket keep their order.
-/

namespace LockstepSort

/-- Columns that are being filled, with the next free position of each bucket. -/
structure Distribution (K V : Type) (n : Nat) where
  target : Pairs K V n
  cursors : Buckets

namespace Distribution

variable {K V : Type} [DigitKey K] {n : Nat}

/-- The distribution after one more pair is placed at the next free position of its
bucket. -/
def deposit (place : Nat) (state : Distribution K V n) (pair : K × V) :
    Attempt (Distribution K V n) (Distribution K V n) := do
  let digit ← Attempt.ask state (DigitKey.digit pair.1 place)
  let bucket := Buckets.ofDigit digit
  let position := state.cursors.get bucket
  if h : position < n then
    let target := state.target.set ⟨position, h⟩ pair.1 pair.2
    let cursors ← Attempt.ask { state with target := target } (state.cursors.advance bucket)
    return ⟨target, cursors⟩
  else
    throw ⟨.indexOutOfBounds position n, state⟩

end Distribution

/-- The columns `target` after the pairs, distributed by their digits at a place, are laid
down over them. -/
def Pairs.distribute {K V : Type} [DigitKey K] {n : Nat} (direction : Direction)
    (place : Nat) (pairs target : Pairs K V n) : Attempt (Pairs K V n) (Pairs K V n) := do
  let counts ← Attempt.ask target (Buckets.counts place pairs.keys.toList)
  let cursors ← Attempt.ask target (counts.starts direction)
  Attempt.within Distribution.target
    (pairs.toList.foldlM (Distribution.deposit place) ⟨target, cursors⟩)

end LockstepSort
