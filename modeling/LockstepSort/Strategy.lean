import LockstepSort.Direction
import LockstepSort.Key.Word

/-!
# Strategies

A strategy fixes how a sort proceeds: its direction, the longest range that is sorted by
digits, the longest range that is sorted by insertion instead, and the digits that are
read.  `Strategy.action` is what a strategy does with a range of a given length, and
`Strategy.scratchRequired` the longest range it may sort by digits.
-/

namespace LockstepSort

/-- The digits of a key that a sort by digits reads. -/
inductive DigitSpan where
  /-- The digits of the lowest 32 bits. -/
  | low32
  /-- All digits. -/
  | full
  deriving DecidableEq, Repr

namespace DigitSpan

instance : Inhabited DigitSpan := ⟨low32⟩

/-- The number of digits in 32 bits. -/
def lowPlaces : Nat := 4

/-- The number of digits of a key that are read. -/
def passes (K : Type) [DigitKey K] (span : DigitSpan) : Nat :=
  match span with
  | low32 => min lowPlaces (DigitKey.places K)
  | full => DigitKey.places K

/-- The name of a span. -/
def text : DigitSpan → String
  | low32 => "Low32"
  | full => "Full"

/-- Only digits that keys have are read. -/
theorem passes_le_places {K : Type} [DigitKey K] (span : DigitSpan) :
  span.passes K ≤ DigitKey.places K
  := by
  cases span with
  | low32 => apply Nat.min_le_right
  | full => apply Nat.le_refl

end DigitSpan

/-- A way to sort. -/
structure Strategy where
  /-- The order of the keys. -/
  direction : Direction
  /-- The length of the longest range that is not split. -/
  radixLimit : Nat
  /-- The length of the longest range sorted by insertion, if any is. -/
  insertionLimit : Option Nat
  /-- The digits that are read. -/
  span : DigitSpan
  deriving DecidableEq, Repr

/-- What is done with a range. -/
inductive Action where
  /-- The range is in order whatever it holds. -/
  | leave
  /-- The range is sorted by insertion. -/
  | insertion
  /-- The range is sorted by digits. -/
  | radix
  /-- The range is split around a pivot. -/
  | split
  deriving DecidableEq, Repr

namespace Strategy

/-- The limit on ranges sorted by digits unless another one is chosen. -/
def defaultRadixLimit : Nat := 5000000

/-- The limit on ranges sorted by insertion, where any are. -/
def defaultInsertionLimit : Nat := 12

/-- The strategy of the plain sorts for keys of type `K`: short ranges are sorted by
insertion only when 64-bit keys descend. -/
def forKeys (K : Type) [DigitKey K] (direction : Direction) : Strategy where
  direction := direction
  radixLimit := defaultRadixLimit
  insertionLimit :=
    match direction with
    | .ascending => none
    | .descending => if DigitKey.bits K = 64 then some defaultInsertionLimit else none
  span := .low32

/-- The strategy of the plain ascending sort of 32-bit keys. -/
instance : Inhabited Strategy := ⟨forKeys Int32 .ascending⟩

/-- Whether ranges of `length` elements are short enough to be sorted by insertion. -/
def insertsAt (strategy : Strategy) (length : Nat) : Bool :=
  strategy.insertionLimit.any fun limit => decide (length ≤ limit)

/-- What is done with a range of `length` elements. -/
def action (strategy : Strategy) (length : Nat) : Action :=
  if length ≤ 1 then
    .leave
  else if length ≤ strategy.radixLimit then
    if strategy.insertsAt length then .insertion else .radix
  else
    .split

/-- The length of the longest range that may be sorted by digits when a range of `length`
elements is. -/
def scratchRequired (strategy : Strategy) (length : Nat) : Nat :=
  if length ≤ 1 ∨ strategy.insertsAt length then 0 else min length strategy.radixLimit

theorem le_one_of_action_leave {strategy : Strategy} {length : Nat}
    (h : strategy.action length = .leave) :
  length ≤ 1
  := by
  unfold action at h
  split at h
  · assumption
  · split at h
    · split at h <;> contradiction
    · contradiction

theorem insertsAt_iff {strategy : Strategy} {length : Nat} :
  strategy.insertsAt length
    ↔ ∃ limit, strategy.insertionLimit = some limit ∧ length ≤ limit
  := by
  unfold insertsAt
  cases strategy.insertionLimit <;> simp

theorem not_insertsAt_iff {strategy : Strategy} {length : Nat} :
  ¬ strategy.insertsAt length
    ↔ ∀ limit, strategy.insertionLimit = some limit → limit < length
  := by
  rw [insertsAt_iff]
  simp

theorem insertsAt_of_le {strategy : Strategy} {length longer : Nat} (hle : length ≤ longer)
    (h : strategy.insertsAt longer) :
  strategy.insertsAt length
  := by
  obtain ⟨limit, hlimit, hlonger⟩ := insertsAt_iff.mp h
  exact insertsAt_iff.mpr ⟨limit, hlimit, Nat.le_trans hle hlonger⟩

/-- A higher limit on ranges sorted by insertion leaves no range out. -/
theorem insertsAt_of_insertionLimit_le {strategy strategy' : Strategy} {length : Nat}
    (hle : strategy'.insertionLimit ≤ strategy.insertionLimit) (h : strategy'.insertsAt length) :
  strategy.insertsAt length
  := by
  obtain ⟨limit', hlimit', hlength⟩ := insertsAt_iff.mp h
  rw [hlimit'] at hle
  cases hlimit : strategy.insertionLimit with
  | none =>
      rw [hlimit] at hle
      cases hle
  | some limit =>
      rw [hlimit, Option.some_le_some] at hle
      exact insertsAt_iff.mpr ⟨limit, hlimit, Nat.le_trans hlength hle⟩

/-- Scratch as long as the range, or as long as any range sorted by digits, is enough. -/
theorem scratchRequired_le (strategy : Strategy) (length : Nat) :
  strategy.scratchRequired length ≤ min length strategy.radixLimit
  := by
  unfold scratchRequired
  split
  · apply Nat.zero_le
  · apply Nat.le_refl

/-- Longer ranges, a higher limit on ranges sorted by digits and a lower one on ranges sorted by
insertion never require less scratch. -/
theorem scratchRequired_le_scratchRequired {strategy strategy' : Strategy} {length length' : Nat}
    (hlength : length ≤ length') (hlimit : strategy.radixLimit ≤ strategy'.radixLimit)
    (hinsertion : strategy'.insertionLimit ≤ strategy.insertionLimit) :
  strategy.scratchRequired length ≤ strategy'.scratchRequired length'
  := by
  by_cases h : length ≤ 1 ∨ strategy.insertsAt length
  · rw [scratchRequired, if_pos h]
    apply Nat.zero_le
  · have h' : ¬ (length' ≤ 1 ∨ strategy'.insertsAt length') := by
      rintro (hone | hinserts)
      · apply h
        left
        omega
      · apply h
        right
        apply insertsAt_of_insertionLimit_le hinsertion (insertsAt_of_le hlength hinserts)
    rw [scratchRequired, if_neg h, scratchRequired, if_neg h']
    omega

/-- Longer ranges never require less scratch. -/
theorem scratchRequired_mono (strategy : Strategy) {length longer : Nat}
    (hle : length ≤ longer) :
  strategy.scratchRequired length ≤ strategy.scratchRequired longer
  := by
  apply scratchRequired_le_scratchRequired hle (Nat.le_refl _)
  cases strategy.insertionLimit with
  | none => trivial
  | some limit => apply Option.some_le_some.mpr (Nat.le_refl _)

theorem one_lt_of_action_split {strategy : Strategy} {length : Nat}
    (h : strategy.action length = .split) :
  1 < length
  := by
  unfold action at h
  split at h
  · contradiction
  · omega

theorem action_eq_leave_iff {strategy : Strategy} {length : Nat} :
  strategy.action length = .leave ↔ length ≤ 1
  := by
  constructor
  · apply le_one_of_action_leave
  · intro h
    apply if_pos h

/-- A range that is sorted by insertion is longer than 1, and not too long to be sorted at
once or by insertion. -/
theorem action_eq_insertion_iff {strategy : Strategy} {length : Nat} :
  strategy.action length = .insertion
    ↔ 1 < length ∧ length ≤ strategy.radixLimit ∧ strategy.insertsAt length
  := by
  unfold action
  split
  · simp
    omega
  · split
    · split <;> simp_all
    · simp
      omega

theorem action_eq_split_iff {strategy : Strategy} {length : Nat} :
  strategy.action length = .split ↔ 1 < length ∧ strategy.radixLimit < length
  := by
  unfold action
  split
  · simp
    omega
  · split
    · split <;> simp <;> omega
    · simp
      omega

/-- A range that is sorted by digits is longer than 1, and is neither longer than what is
sorted by digits nor short enough to be sorted by insertion. -/
theorem action_eq_radix_iff {strategy : Strategy} {length : Nat} :
  strategy.action length = .radix
    ↔ 1 < length ∧ length ≤ strategy.radixLimit ∧ ¬ strategy.insertsAt length
  := by
  unfold action
  split
  · simp
    omega
  · split
    · split <;> simp_all
    · simp
      omega

/-- The scratch that is required serves the range itself, if that is sorted by digits. -/
theorem le_scratchRequired {strategy : Strategy} {length : Nat}
    (h : strategy.action length = .radix) :
  length ≤ strategy.scratchRequired length
  := by
  obtain ⟨hlength, hlimit, hinserts⟩ := action_eq_radix_iff.mp h
  have hcase : ¬ (length ≤ 1 ∨ strategy.insertsAt length) := by
    rintro (hone | hinserts')
    · omega
    · contradiction
  unfold scratchRequired
  rw [if_neg hcase]
  omega

end Strategy

end LockstepSort
