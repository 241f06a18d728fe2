/-!
# Failures

The ways in which a sort refuses to run.  A `Rejection` is a request that does not fit
the columns or the scratch it comes with; a `Fault` is a broken assumption of the sorter
itself: a key outside its domain, columns that do not pair up, a digit that a key does
not have, an index outside a column.  Each has one wording, its `message`.
-/

namespace LockstepSort

/-- A request that is turned down before any pair moves. -/
inductive Rejection where
  /-- The columns hold different numbers of elements. -/
  | lengthMismatch (keys values : Nat)
  /-- The window of `length` elements at `offset` leaves columns of `size` elements. -/
  | rangeOutOfBounds (offset length size : Nat)
  /-- The scratch serves ranges of at most `capacity` elements, and `required` may be
  needed. -/
  | scratchTooSmall (required capacity : Nat)
  deriving DecidableEq, Repr

namespace Rejection

/-- The wording of a rejection. -/
def message : Rejection → String
  | lengthMismatch keys values =>
    s!"keys and values differ in length ({keys} keys, {values} values)"
  | rangeOutOfBounds offset length size =>
    s!"range of {length} elements at offset {offset} is out of bounds for length {size}"
  | scratchTooSmall required capacity =>
    s!"workspace holds {capacity} elements but {required} are required"

end Rejection

/-- A column that has to be as long as the column of keys. -/
inductive Column where
  | values
  | scratchKeys
  | scratchValues
  deriving DecidableEq, Repr

namespace Column

/-- The demand on a column, in words. -/
def demand : Column → String
  | values => "values must pair with keys"
  | scratchKeys => "scratch keys must match range"
  | scratchValues => "scratch values must match range"

end Column

/-- A broken assumption of the sorter. -/
inductive Fault where
  /-- A key to be sorted is negative. -/
  | negativeKeys
  /-- A column has `actual` elements where there are `expected` keys. -/
  | unequalLengths (column : Column) (actual expected : Nat)
  /-- The bit position of a digit does not fit in 32 bits. -/
  | positionOverflow
  /-- The bit position of a digit lies outside the key. -/
  | shiftOverflow
  /-- A count does not fit in 64 bits. -/
  | countOverflow
  /-- An element is wanted at `index` of a column of `size` elements. -/
  | indexOutOfBounds (index size : Nat)
  /-- The first `stop` elements are wanted of a column of `size` elements. -/
  | stopOutOfBounds (stop size : Nat)
  deriving DecidableEq, Repr

namespace Fault

/-- The wording of a fault. -/
def message : Fault → String
  | negativeKeys => "negative keys are not supported"
  | unequalLengths column actual expected =>
    "assertion `left == right` failed: " ++ column.demand
      ++ s!"\n  left: {actual}\n right: {expected}"
  | positionOverflow => "attempt to multiply with overflow"
  | shiftOverflow => "attempt to shift right with overflow"
  | countOverflow => "attempt to add with overflow"
  | indexOutOfBounds index size =>
    s!"index out of bounds: the len is {size} but the index is {index}"
  | stopOutOfBounds stop size =>
    s!"range end index {stop} out of range for slice of length {size}"

end Fault

/-- The reason why a request was not served. -/
inductive Failure where
  | rejected (reason : Rejection)
  | faulted (fault : Fault)
  deriving DecidableEq, Repr

namespace Failure

/-- The wording of a failure. -/
def message : Failure → String
  | rejected reason => reason.message
  | faulted fault => fault.message

end Failure

end LockstepSort
