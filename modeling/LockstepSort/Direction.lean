/-!
# Directions

The two orders in which keys may be sorted.  A direction says when a key belongs strictly
before another, and in which order the buckets of a digit follow one another.
-/

namespace LockstepSort

/-- The order of the keys after a sort. -/
inductive Direction where
  /-- Keys never decrease. -/
  | ascending
  /-- Keys never increase. -/
  | descending
  deriving DecidableEq, Repr

namespace Direction

instance : Inhabited Direction := ⟨ascending⟩

/-- Whether `a` belongs strictly before `b`. -/
def precedes {K : Type} [Ord K] (direction : Direction) (a b : K) : Bool :=
  match direction with
  | ascending => (compare a b).isLT
  | descending => (compare a b).isGT

/-- The name of a direction. -/
def text : Direction → String
  | ascending => "ascending"
  | descending => "descending"

end Direction

end LockstepSort
