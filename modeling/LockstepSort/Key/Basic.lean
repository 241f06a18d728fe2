import LockstepSort.Failure

/-!
# Keys with digits

A key is compared as a whole, through `Ord`, and read digit by digit, through `DigitKey`:
digit `p` is its byte `p`, the lowest byte first.  Nothing ties the two readings together;
`digitValue` is the number that the lowest digits of a key spell, and a sort by digits is a
sort by that number.
-/

namespace LockstepSort

/-- The width of a digit in bits. -/
def digitBits : Nat := 8

/-- The number of values of a digit. -/
def bucketCount : Nat := 256

/-- What a digit at a place counts for. -/
def placeValue : Nat → Nat
  | 0 => 1
  | place + 1 => placeValue place * bucketCount

/-- The bound of bit positions, which are counted in 32 bits. -/
def positionLimit : Nat := 4294967296

/-- The byte at place `place` of `word`, of which the lowest `width` bits are stored.  The
place is kept in 32 bits, and so is the bit position it stands for. -/
def wordDigit (width : Nat) (word : UInt64) (place : Nat) : Except Fault UInt8 :=
  let position := place % positionLimit * digitBits
  if positionLimit ≤ position then
    .error .positionOverflow
  else if width ≤ position then
    .error .shiftOverflow
  else
    .ok (word >>> UInt64.ofNat position).toUInt8

/-- A key of a fixed width that is compared as a whole and read digit by digit. -/
class DigitKey (K : Type) extends Ord K where
  /-- The width of a key in bits. -/
  bits : Nat
  /-- The digit at a place; place 0 holds the lowest digit. -/
  digit : K → Nat → Except Fault UInt8
  /-- Whether a key lies below zero, where its digits do not follow its order. -/
  isNegative : K → Bool := fun _ => false

/-- The number of digits of a key. -/
def DigitKey.places (K : Type) [DigitKey K] : Nat := bits K / digitBits

/-- A key all of whose digits can be read. -/
class LawfulDigitKey (K : Type) [DigitKey K] : Prop where
  exists_digit (key : K) (place : Nat) :
    place < DigitKey.places K → ∃ digit, DigitKey.digit key place = .ok digit

section

variable {K : Type} [DigitKey K]

/-- The digit at a place as a number, zero where there is none. -/
def digitAt (key : K) (place : Nat) : Nat :=
  match DigitKey.digit key place with
  | .ok digit => digit.toNat
  | .error _ => 0

/-- The number spelled by the lowest `places` digits of a key. -/
def digitValue (places : Nat) (key : K) : Nat :=
  match places with
  | 0 => 0
  | place + 1 => digitValue place key + digitAt key place * placeValue place

theorem digitAt_of_digit {key : K} {place : Nat} {digit : UInt8}
    (h : DigitKey.digit key place = .ok digit) :
  digitAt key place = digit.toNat
  := by
  rw [digitAt, h]

theorem digitAt_lt (key : K) (place : Nat) :
  digitAt key place < bucketCount
  := by
  unfold digitAt
  split
  · apply UInt8.toNat_lt
  · decide

end

end LockstepSort
