import LockstepSort.Proofs.Digits
import LockstepSort.Proofs.Radix.Sort
import Mathlib.Algebra.Order.Ring.Int
import Mathlib.Data.List.Range

/-!
# Keys spelled by their digits

Read from the highest one down, the digits of two keys compare as the numbers they spell.  The
digits of a machine integer spell what is left of it when it is cut to its width: the integer
itself if it is not negative, and else a number that is larger than all of those.  So all digits
together tell two keys apart, and put them in their order on either side of zero, but the negative
ones behind the others.
-/

namespace LockstepSort

/-! ### Digits from the highest one down -/

section

variable {K : Type} [DigitKey K]

theorem placeValue_eq_pow (place : Nat) :
  placeValue place = 256 ^ place
  := by
  induction place with
  | zero => rfl
  | succ place ih => rw [placeValue, ih, Nat.pow_succ, bucketCount]

/-- The number that digits spell is the sum of what each of them counts for. -/
theorem digitValue_eq_sum (places : Nat) (key : K) :
  digitValue places key
    = ((List.range places).map fun place => digitAt key place * 256 ^ place).sum
  := by
  induction places with
  | zero => rfl
  | succ place ih =>
      rw [digitValue, ih, placeValue_eq_pow, List.range_succ, List.map_append, List.sum_append,
        List.map_singleton, List.sum_singleton]

/-- The lowest `places` digits of a key, the highest one of them first. -/
def digitsDown (places : Nat) (key : K) : List Nat :=
  (List.range places).reverse.map (digitAt key)

theorem digitsDown_succ (place : Nat) (key : K) :
  digitsDown (place + 1) key = digitAt key place :: digitsDown place key
  := by
  rw [digitsDown, List.range_succ, List.reverse_append]
  rfl

/-- Read from the highest one down, digits compare as the numbers they spell. -/
theorem compare_digitsDown (places : Nat) (a b : K) :
  List.compareLex compare (digitsDown places a) (digitsDown places b)
    = compare (digitValue places a) (digitValue places b)
  := by
  induction places with
  | zero => rfl
  | succ place ih =>
      rw [digitsDown_succ, digitsDown_succ, List.compareLex_cons_cons, ih, digitValue, digitValue,
        compare_add_mul _ _ (digitValue_lt place a) (digitValue_lt place b)]

end

/-! ### Integers and the words that store them -/

section

variable {α β : Type} [Ord α] [LT α] [LE α] [Std.LawfulOrderOrd α] [Std.LawfulOrderLT α]
  [Ord β] [LT β] [LE β] [Std.LawfulOrderOrd β] [Std.LawfulOrderLT β]

/-- Where one of two elements is the lesser if and only if the same one of two others is, they
compare alike. -/
theorem compare_congr {a b : α} {c d : β} (hlt : a < b ↔ c < d) (hgt : b < a ↔ d < c) :
  compare a b = compare c d
  := by
  rw [← Std.compare_eq_lt, ← Std.compare_eq_lt (a := c)] at hlt
  rw [← Std.compare_eq_gt, ← Std.compare_eq_gt (a := c)] at hgt
  cases hab : compare a b <;> cases hcd : compare c d <;> simp_all

end

/-- Keys of type `K` stand for integers, compare as they do, and are stored as words, the bytes of
which are their digits.  A word is what is left of the integer when it is cut to the width of the
keys, and no two integers are further apart than that leaves room for. -/
structure StoredAs (K : Type) [DigitKey K] (number : K → Int) (word : K → UInt64) : Prop where
  digit (key : K) : DigitKey.digit key = wordDigit (DigitKey.bits K) (word key)
  compare_eq (a b : K) : compare a b = compare (number a) (number b)
  isNegative (key : K) : DigitKey.isNegative key ↔ number key < 0
  word_eq (key : K) : ((word key).toNat : Int) = number key % 2 ^ DigitKey.bits K
  lower (key : K) : -2 ^ DigitKey.bits K ≤ number key
  upper (key : K) : number key < 2 ^ DigitKey.bits K
  apart (a b : K) : number a < number b + 2 ^ DigitKey.bits K

/-- Keys that are whole digits wide have as many values as their digits together. -/
theorem pow_places {K : Type} [DigitKey K] (hwhole : 8 ∣ DigitKey.bits K) :
  (256 : Int) ^ DigitKey.places K = 2 ^ DigitKey.bits K
  := by
  rw [show (256 : Int) = 2 ^ 8 from rfl, ← pow_mul, DigitKey.places, digitBits,
    Nat.mul_div_cancel' hwhole]

namespace StoredAs

variable {K : Type} [DigitKey K] {number : K → Int} {word : K → UInt64}

/-- The lowest digits of a key spell what is left of its integer when that is cut to them. -/
theorem digitValue_eq_emod (h : StoredAs K number word) (hbits : DigitKey.bits K ≤ 64)
    {places : Nat} (hplaces : places ≤ DigitKey.places K) (key : K) :
  (digitValue places key : Int) = number key % 256 ^ places
  := by
  have hdvd : (256 : Int) ^ places ∣ 2 ^ DigitKey.bits K := by
    have hpow : (256 : Int) ^ places = 2 ^ (8 * places) := by
      rw [pow_mul]
      rfl
    rw [hpow]
    apply pow_dvd_pow
    simp only [DigitKey.places, digitBits] at hplaces
    omega
  rw [digitValue_eq_mod (h.digit key) hbits hplaces, placeValue_eq_pow, Int.natCast_mod, h.word_eq]
  push_cast
  apply Int.emod_emod_of_dvd _ hdvd

/-- All digits of a key together spell its integer, or a number that is larger by what the width
leaves room for if that is negative. -/
theorem digitValue_places (h : StoredAs K number word) (hbits : DigitKey.bits K ≤ 64)
    (hwhole : 8 ∣ DigitKey.bits K) (key : K) :
  (digitValue (DigitKey.places K) key : Int)
    = if DigitKey.isNegative key then number key + 2 ^ DigitKey.bits K else number key
  := by
  have hlower := h.lower key
  have hupper := h.upper key
  rw [h.digitValue_eq_emod hbits (Nat.le_refl _), pow_places hwhole]
  split
  next hnegative =>
      rw [h.isNegative] at hnegative
      rw [← Int.add_emod_right]
      apply Int.emod_eq_of_lt <;> omega
  next hnegative =>
      rw [h.isNegative] at hnegative
      apply Int.emod_eq_of_lt <;> omega

/-- The numbers that all digits of keys spell compare as the keys do, except that negative keys
come behind the others. -/
theorem compare_digitValue (h : StoredAs K number word) (hbits : DigitKey.bits K ≤ 64)
    (hwhole : 8 ∣ DigitKey.bits K) (a b : K) :
  compare (digitValue (DigitKey.places K) a) (digitValue (DigitKey.places K) b)
    = match DigitKey.isNegative a, DigitKey.isNegative b with
      | false, true => .lt
      | true, false => .gt
      | _, _ => compare a b
  := by
  have ha := h.digitValue_places hbits hwhole a
  have hb := h.digitValue_places hbits hwhole b
  have hab := h.apart a b
  have hba := h.apart b a
  rw [h.compare_eq]
  -- Of two keys of one sign, the numbers spelled are as far apart as the integers.
  cases hsign : DigitKey.isNegative a <;> cases hsign' : DigitKey.isNegative b <;>
    simp only [hsign, hsign', if_true, if_false, Bool.false_eq_true] at ha hb ⊢
  · apply compare_congr <;> omega
  · apply Nat.compare_eq_lt.mpr
    omega
  · apply Nat.compare_eq_gt.mpr
    omega
  · apply compare_congr <;> omega

section

variable (hdigit : ∀ key, DigitKey.digit key = wordDigit (DigitKey.bits K) (word key))
  (hcompare : ∀ a b : K, compare a b = compare (number a) (number b))
  (hnegative : ∀ key, DigitKey.isNegative key ↔ number key < 0)
  {stored : K → BitVec (DigitKey.bits K)} (hword : ∀ key, (word key).toNat = (stored key).toNat)
include hdigit hcompare hnegative hword

/-- Keys that are stored without a sign. -/
theorem of_unsigned (hnumber : ∀ key, number key = (stored key).toNat) :
  StoredAs K number word
  := by
  have hbound (key : K) : ((stored key).toNat : Int) < 2 ^ DigitKey.bits K := by
    exact_mod_cast (stored key).isLt
  refine ⟨hdigit, hcompare, hnegative, ?_, ?_, ?_, ?_⟩
  · intro key
    rw [hword, hnumber]
    symm
    apply Int.emod_eq_of_lt (by omega) (hbound key)
  · intro key
    have := hbound key
    rw [hnumber]
    omega
  · intro key
    rw [hnumber]
    apply hbound
  · intro a b
    have := hbound a
    rw [hnumber, hnumber]
    omega

/-- Keys that are stored in two's complement. -/
theorem of_signed (hnumber : ∀ key, number key = (stored key).toInt) :
  StoredAs K number word
  := by
  have hlower (key : K) := (stored key).le_two_mul_toInt
  have hupper (key : K) := BitVec.two_mul_toInt_lt (x := stored key)
  refine ⟨hdigit, hcompare, hnegative, ?_, ?_, ?_, ?_⟩
  · intro key
    have hbound : ((stored key).toNat : Int) < ((2 ^ DigitKey.bits K : Nat) : Int) := by
      exact_mod_cast (stored key).isLt
    have hmod := @Int.bmod_emod (stored key).toNat (2 ^ DigitKey.bits K)
    rw [← BitVec.toInt_eq_toNat_bmod, Int.emod_eq_of_lt (by omega) hbound] at hmod
    rw [hword, hnumber, ← hmod]
    push_cast
    rfl
  · intro key
    have := hlower key
    have := hupper key
    rw [hnumber]
    omega
  · intro key
    have := hlower key
    have := hupper key
    rw [hnumber]
    omega
  · intro a b
    have := hupper a
    have := hlower b
    rw [hnumber, hnumber]
    omega

end

end StoredAs

theorem storedAs_int32 :
  StoredAs Int32 Int32.toInt (fun key => key.toUInt32.toUInt64)
  := by
  apply StoredAs.of_signed (fun _ => rfl)
    (fun _ _ => compare_congr Int32.lt_iff_toInt_lt Int32.lt_iff_toInt_lt) _
    (fun key => UInt32.toNat_toUInt64 key.toUInt32) (fun _ => rfl)
  intro key
  apply decide_eq_true_iff.trans Int32.lt_iff_toInt_lt

theorem storedAs_int64 :
  StoredAs Int64 Int64.toInt Int64.toUInt64
  := by
  apply StoredAs.of_signed (fun _ => rfl)
    (fun _ _ => compare_congr Int64.lt_iff_toInt_lt Int64.lt_iff_toInt_lt) _
    (fun _ => rfl) (fun _ => rfl)
  intro key
  apply decide_eq_true_iff.trans Int64.lt_iff_toInt_lt

theorem storedAs_uint32 :
  StoredAs UInt32 (fun key => key.toNat) UInt32.toUInt64
  := by
  apply StoredAs.of_unsigned (fun _ => rfl) _ _ UInt32.toNat_toUInt64 (fun _ => rfl)
  · intro a b
    apply compare_congr <;> apply UInt32.lt_iff_toNat_lt.trans Int.ofNat_lt.symm
  · intro key
    simp [DigitKey.isNegative]

theorem storedAs_uint64 :
  StoredAs UInt64 (fun key => key.toNat) id
  := by
  apply StoredAs.of_unsigned (fun _ => rfl) _ _ (fun _ => rfl) (fun _ => rfl)
  · intro a b
    apply compare_congr <;> apply UInt64.lt_iff_toNat_lt.trans Int.ofNat_lt.symm
  · intro key
    simp [DigitKey.isNegative]

/-! ### Spelling -/

/-- Keys of type `K` stand for integers, compare as they do, and are stored in `width` bits.  All
their digits can be read, by a sort that reads them all.  They spell the integer cut to `width`
bits, which is how it is stored, and the lowest four of them spell it cut to 32 bits.  No two keys
have the same digits, and read from the highest one down these compare as the keys do, except that
negative keys come behind the others. -/
structure SpelledByDigits (K : Type) [DigitKey K] (width : Nat) (number : K → Int)
    (unsigned : K → Nat) : Prop where
  compare_eq (a b : K) : compare a b = compare (number a) (number b)
  isNegative (key : K) : DigitKey.isNegative key ↔ number key < 0
  unsigned_eq (key : K) : (unsigned key : Int) = number key % 2 ^ width
  passes_full : DigitSpan.full.passes K = width / 8
  passes_low : DigitSpan.low32.passes K = 4
  digit (key : K) (place : Nat) : place < width / 8 →
    ∃ digit, DigitKey.digit key place = .ok digit
      ∧ digitAt key place = digit.toNat ∧ digitAt key place < 256
  sum_full (key : K) :
    ((List.range (width / 8)).map fun place => digitAt key place * 256 ^ place).sum = unsigned key
  sum_low (key : K) :
    (((List.range 4).map fun place => digitAt key place * 256 ^ place).sum : Nat)
      = number key % 2 ^ 32
  injective : Function.Injective fun key : K => digitsDown (width / 8) key
  ordered (a b : K) :
    List.compareLex compare (digitsDown (width / 8) a) (digitsDown (width / 8) b)
      = match DigitKey.isNegative a, DigitKey.isNegative b with
        | false, true => .lt
        | true, false => .gt
        | _, _ => compare a b

/-- Keys that are stored as words of four digits, or of more, are spelled by their digits. -/
theorem StoredAs.spelledByDigits {K : Type} [DigitKey K] [LawfulDigitKey K] [Std.LawfulEqOrd K]
    {number : K → Int} {word : K → UInt64} (h : StoredAs K number word)
    (hlow : 32 ≤ DigitKey.bits K) (hbits : DigitKey.bits K ≤ 64) (hwhole : 8 ∣ DigitKey.bits K) :
  SpelledByDigits K (DigitKey.bits K) number (fun key => (word key).toNat)
  where
  compare_eq := h.compare_eq
  isNegative := h.isNegative
  unsigned_eq := h.word_eq
  passes_full := rfl
  passes_low := by
    apply Nat.min_eq_left
    simp only [DigitSpan.lowPlaces, DigitKey.places, digitBits]
    omega
  digit key place hplace := by
    obtain ⟨digit, hdigit⟩ := LawfulDigitKey.exists_digit key place hplace
    exact ⟨digit, hdigit, digitAt_of_digit hdigit, digitAt_lt key place⟩
  sum_full key := by
    have hvalue := h.digitValue_eq_emod hbits (Nat.le_refl _) key
    rw [pow_places hwhole, ← h.word_eq, Int.ofNat_inj, digitValue_eq_sum] at hvalue
    apply hvalue
  sum_low key := by
    have hplaces : 4 ≤ DigitKey.places K := by
      simp only [DigitKey.places, digitBits]
      omega
    rw [← digitValue_eq_sum, h.digitValue_eq_emod hbits hplaces]
    rfl
  injective a b hdigits := by
    have hcompare := compare_digitsDown (DigitKey.places K) a b
    rw [show digitsDown (DigitKey.places K) a = digitsDown (DigitKey.places K) b from hdigits,
      compare_digitsDown, Nat.compare_eq_eq.mpr rfl, h.compare_digitValue hbits hwhole] at hcompare
    apply Std.compare_eq_iff_eq.mp
    cases hsign : DigitKey.isNegative a <;> cases hsign' : DigitKey.isNegative b <;>
      simp_all
  ordered a b := by
    rw [← h.compare_digitValue hbits hwhole]
    apply compare_digitsDown

/-- The machine integers are spelled by their digits, and put in order by them. -/
theorem digits_spell_keys_in_order :
  SpelledByDigits Int32 32 Int32.toInt (fun key => key.toUInt32.toNat)
  ∧ SpelledByDigits Int64 64 Int64.toInt (fun key => key.toUInt64.toNat)
  ∧ SpelledByDigits UInt32 32 (fun key => key.toNat) UInt32.toNat
  ∧ SpelledByDigits UInt64 64 (fun key => key.toNat) UInt64.toNat
  := by
  refine ⟨?_, ?_, ?_, ?_⟩
  · apply storedAs_int32.spelledByDigits (by decide) (by decide) (by decide)
  · apply storedAs_int64.spelledByDigits (by decide) (by decide) (by decide)
  · apply storedAs_uint32.spelledByDigits (by decide) (by decide) (by decide)
  · apply storedAs_uint64.spelledByDigits (by decide) (by decide) (by decide)

end LockstepSort
