import LockstepSort.Key.Basic

/-!
# Machine integers as keys

The integers of 32 and 64 bits, signed and unsigned.  The digits of a signed integer are
the bytes of its two's complement, so negative keys have the digits of large numbers, and
are reported as negative.
-/

namespace LockstepSort

instance : DigitKey UInt32 where
  bits := 32
  digit key place := wordDigit 32 key.toUInt64 place

instance : DigitKey UInt64 where
  bits := 64
  digit key place := wordDigit 64 key place

instance : DigitKey Int32 where
  bits := 32
  digit key place := wordDigit 32 key.toUInt32.toUInt64 place
  isNegative key := decide (key < 0)

instance : DigitKey Int64 where
  bits := 64
  digit key place := wordDigit 64 key.toUInt64 place
  isNegative key := decide (key < 0)

/-- The digit at a place inside a word is the byte there. -/
theorem wordDigit_eq_ok
    {width place : Nat} (word : UInt64) (hwidth : width ≤ 64)
    (hplace : place < width / digitBits) :
  wordDigit width word place = .ok (word >>> UInt64.ofNat (place * digitBits)).toUInt8
  := by
  have hposition : place * digitBits < width := by
    simp only [digitBits] at hplace ⊢
    omega
  have hlimit : 64 < positionLimit := by decide
  have hmod : place % positionLimit = place := by
    apply Nat.mod_eq_of_lt
    simp only [digitBits] at hplace
    omega
  unfold wordDigit
  rw [hmod, if_neg (by omega), if_neg (by omega)]

/-- A word has every digit that starts inside it. -/
theorem exists_wordDigit
    {width place : Nat} (word : UInt64) (hwidth : width ≤ 64)
    (hplace : place < width / digitBits) :
  ∃ digit, wordDigit width word place = .ok digit
  := ⟨_, wordDigit_eq_ok word hwidth hplace⟩

instance : LawfulDigitKey UInt32 where
  exists_digit key _ h := exists_wordDigit key.toUInt64 (by decide) h

instance : LawfulDigitKey UInt64 where
  exists_digit key _ h := exists_wordDigit key (by decide) h

instance : LawfulDigitKey Int32 where
  exists_digit key _ h := exists_wordDigit key.toUInt32.toUInt64 (by decide) h

instance : LawfulDigitKey Int64 where
  exists_digit key _ h := exists_wordDigit key.toUInt64 (by decide) h

end LockstepSort
