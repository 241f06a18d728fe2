import LockstepSort.Proofs.StableSort
import LockstepSort.Strategy

/-!
# Digits and the order of keys

A machine word is spelled by its digits: the lowest of them spell its remainder.  So the
digits of keys that are not negative follow the order of the keys, as far as the digits that
are read reach.  Where they do, an order by the number they spell is one by the keys; it is
the same order if keys that tie spell the same number too.  Where only equal keys tie they do,
but keys may tie that have different digits.
-/

namespace LockstepSort

/-! ### Words -/

private theorem toNat_toUInt8_shiftRight (word : UInt64) {place : Nat} (hplace : place < 8) :
  (word >>> UInt64.ofNat (place * digitBits)).toUInt8.toNat
    = word.toNat / placeValue place % bucketCount
  := by
  have hshift : (UInt64.ofNat (place * digitBits)).toNat % 64 = place * digitBits := by
    rw [UInt64.toNat_ofNat']
    simp only [digitBits]
    omega
  have hpow (p : Nat) : placeValue p = 2 ^ (p * digitBits) := by
    induction p with
    | zero => rfl
    | succ p ih => rw [placeValue, ih, Nat.succ_mul, Nat.pow_add, bucketCount, digitBits]
  rw [UInt64.toNat_toUInt8, UInt64.toNat_shiftRight, hshift, Nat.shiftRight_eq_div_pow, hpow]
  rfl

section

variable {K : Type} [DigitKey K] {word : UInt64} {key : K} {places : Nat}

/-- The lowest digits of a key that is stored as a word spell a remainder of the word. -/
theorem digitValue_eq_mod
    (hread : DigitKey.digit key = wordDigit (DigitKey.bits K) word)
    (hbits : DigitKey.bits K ≤ 64) (hplaces : places ≤ DigitKey.places K) :
  digitValue places key = word.toNat % placeValue places
  := by
  induction places with
  | zero => exact (Nat.mod_one word.toNat).symm
  | succ place ih =>
      have hdigit := wordDigit_eq_ok word hbits hplaces
      have hplace : place < 8 := by
        simp only [DigitKey.places, digitBits] at hplaces
        omega
      rw [← hread] at hdigit
      rw [digitValue, digitAt_of_digit hdigit, ih (by omega),
        toNat_toUInt8_shiftRight word hplace, placeValue, Nat.mod_mul, Nat.mul_comm]

end

/-! ### Keys in the order of their digits -/

section

variable {K : Type} [DigitKey K] {span : DigitSpan} {keys : List K} {direction : Direction}
  {a b : K}

/-- Whenever one of two keys is less than the other, so is the number that its digits
spell. -/
def DigitSpan.Follows (span : DigitSpan) (keys : List K) : Prop :=
  ∀ a ∈ keys, ∀ b ∈ keys, compare a b = .lt
    → digitValue (span.passes K) a < digitValue (span.passes K) b

theorem DigitSpan.Follows.subset {keys' : List K} (h : span.Follows keys)
    (hsub : keys' ⊆ keys) :
  span.Follows keys'
  := by
  intro a ha b hb
  apply h a (hsub ha) b (hsub hb)

/-- Keys whose digits follow them may stand as the numbers may that their digits spell. -/
theorem DigitSpan.Follows.admits [Std.OrientedOrd K]
    (h : span.Follows keys) (ha : a ∈ keys) (hb : b ∈ keys)
    (hab : direction.admits (digitValue (span.passes K) a) (digitValue (span.passes K) b)) :
  direction.admits a b
  := by
  by_contra hba
  simp only [Direction.admits, Bool.not_eq_true', Bool.not_eq_false] at hba
  cases direction with
  | ascending =>
      have hlt := h b hb a ha (Ordering.isLT_iff_eq_lt.mp hba)
      simp only [Direction.admits_nat, decide_eq_true_eq] at hab
      omega
  | descending =>
      have hlt := h a ha b hb (Std.OrientedCmp.lt_of_gt (Ordering.isGT_iff_eq_gt.mp hba))
      simp only [Direction.admits_nat, decide_eq_true_eq] at hab
      omega

/-- Whenever two keys tie, the numbers that their digits spell are equal. -/
def DigitSpan.KeepsTies (span : DigitSpan) (keys : List K) : Prop :=
  ∀ a ∈ keys, ∀ b ∈ keys, compare a b = .eq
    → digitValue (span.passes K) a = digitValue (span.passes K) b

theorem DigitSpan.KeepsTies.subset {keys' : List K} (h : span.KeepsTies keys)
    (hsub : keys' ⊆ keys) :
  span.KeepsTies keys'
  := by
  intro a ha b hb
  apply h a (hsub ha) b (hsub hb)

/-- Digits keep the ties of keys of which only equal ones tie. -/
theorem DigitSpan.keepsTies_of_lawfulEq [Std.LawfulEqOrd K] (span : DigitSpan) (keys : List K) :
  span.KeepsTies keys
  := by
  intro a _ b _ hab
  rw [Std.LawfulEqCmp.eq_of_compare hab]

/-- Digits keep the ties of keys of which no two tie. -/
theorem DigitSpan.keepsTies_of_pairwise [Std.OrientedOrd K] {span : DigitSpan}
    (h : keys.Pairwise fun a b => compare a b ≠ .eq) :
  span.KeepsTies keys
  := by
  intro a ha b hb hab
  have : Std.Symm fun c d : K => compare c d ≠ .eq :=
    ⟨fun _ _ hcd hdc => hcd (Std.OrientedCmp.eq_symm hdc)⟩
  by_contra hne
  apply h.forall ha hb _ hab
  rintro rfl
  apply hne rfl

/-- Where the digits follow the keys and keep their ties, keys may stand exactly as the numbers
may that their digits spell. -/
theorem DigitSpan.Follows.admits_eq [Std.TransOrd K] (h : span.Follows keys)
    (hties : span.KeepsTies keys) (ha : a ∈ keys) (hb : b ∈ keys) :
  direction.admits a b
    = direction.admits (digitValue (span.passes K) a) (digitValue (span.passes K) b)
  := by
  rw [Bool.eq_iff_iff]
  constructor
  · intro hab
    by_contra hnot
    have htotal := (direction.isRanking_admits (digitValue (span.passes K))).total a b
    rw [Bool.or_eq_true, or_iff_right hnot] at htotal
    have heq := hties a ha b hb (Direction.compare_of_admits hab (h.admits hb ha htotal))
    apply hnot
    rw [heq] at htotal ⊢
    apply htotal
  · apply h.admits ha hb

/-- The digits of the lowest 32 bits follow keys that are stored as words below 2 ^ 32 in the
order of these words. -/
theorem DigitSpan.follows_of_word
    (word : K → UInt64)
    (hread : ∀ key, DigitKey.digit key = wordDigit (DigitKey.bits K) (word key))
    (hlow : 32 ≤ DigitKey.bits K) (hbits : DigitKey.bits K ≤ 64)
    (hbound : ∀ key ∈ keys, (word key).toNat < 4294967296)
    (hlt : ∀ a ∈ keys, ∀ b ∈ keys, compare a b = .lt → word a < word b) :
  low32.Follows keys
  := by
  have hplaces : lowPlaces ≤ DigitKey.places K := by
    simp only [DigitKey.places, lowPlaces, digitBits]
    omega
  have hvalue (key : K) (hkey : key ∈ keys) :
      digitValue (low32.passes K) key = (word key).toNat := by
    rw [passes, Nat.min_eq_left hplaces, digitValue_eq_mod (hread key) hbits hplaces]
    apply Nat.mod_eq_of_lt (hbound key hkey)
  intro a ha b hb hab
  rw [hvalue a ha, hvalue b hb]
  apply UInt64.lt_iff_toNat_lt.mp (hlt a ha b hb hab)

end

namespace DigitSpan

theorem follows_uint32 (keys : List UInt32) :
  low32.Follows keys
  := by
  apply follows_of_word UInt32.toUInt64 (fun _ => rfl) (by decide) (by decide)
  · intro key _
    rw [UInt32.toNat_toUInt64]
    apply key.toNat_lt
  · intro a _ b _ hab
    rw [Std.compare_eq_lt] at hab
    apply UInt64.lt_iff_toNat_lt.mpr
    simpa using UInt32.lt_iff_toNat_lt.mp hab

theorem follows_uint64 {keys : List UInt64} (h : ∀ key ∈ keys, key < 4294967296) :
  low32.Follows keys
  := by
  apply follows_of_word id (fun _ => rfl) (by decide) (by decide)
  · intro key hkey
    apply UInt64.lt_iff_toNat_lt.mp (h key hkey)
  · intro a _ b _ hab
    apply Std.compare_eq_lt.mp hab

theorem follows_int32 {keys : List Int32} (h : ∀ key ∈ keys, 0 ≤ key) :
  low32.Follows keys
  := by
  have hword (key : Int32) (hkey : key ∈ keys) :
      (key.toUInt32.toUInt64.toNat : Int) = key.toInt := by
    rw [UInt32.toNat_toUInt64, Int32.toNat_toUInt32_of_le (h key hkey)]
    apply Int32.cast_toNatClampNeg key (h key hkey)
  apply follows_of_word (fun key => key.toUInt32.toUInt64) (fun _ => rfl) (by decide) (by decide)
  · intro key _
    rw [UInt32.toNat_toUInt64]
    apply key.toUInt32.toNat_lt
  · intro a ha b hb hab
    have hlt := Int32.lt_iff_toInt_lt.mp (Std.compare_eq_lt.mp hab)
    apply UInt64.lt_iff_toNat_lt.mpr
    have := hword a ha
    have := hword b hb
    omega

theorem follows_int64 {keys : List Int64} (h : ∀ key ∈ keys, 0 ≤ key ∧ key < 4294967296) :
  low32.Follows keys
  := by
  have hword (key : Int64) (hkey : key ∈ keys) : (key.toUInt64.toNat : Int) = key.toInt := by
    rw [Int64.toNat_toUInt64_of_le (h key hkey).1]
    apply Int64.cast_toNatClampNeg key (h key hkey).1
  apply follows_of_word Int64.toUInt64 (fun _ => rfl) (by decide) (by decide)
  · intro key hkey
    have hlt := Int64.lt_iff_toInt_lt.mp (h key hkey).2
    have hbound : (4294967296 : Int64).toInt = 4294967296 := by decide
    have := hword key hkey
    omega
  · intro a ha b hb hab
    have hlt := Int64.lt_iff_toInt_lt.mp (Std.compare_eq_lt.mp hab)
    apply UInt64.lt_iff_toNat_lt.mpr
    have := hword a ha
    have := hword b hb
    omega

end DigitSpan

/-! ### Keys that tie -/

/-- A word that is compared by its upper half only, and read digit by digit as a whole. -/
structure CoarseKey where
  /-- The word, of which the lower half does not count when keys are compared. -/
  word : UInt32
  deriving DecidableEq

namespace CoarseKey

instance : DigitKey CoarseKey where
  compare := compareOn fun key => key.word >>> 16
  bits := 32
  digit key place := wordDigit 32 key.word.toUInt64 place

instance : LawfulDigitKey CoarseKey where
  exists_digit key _ h := exists_wordDigit key.word.toUInt64 (by decide) h

instance : Std.TransOrd CoarseKey :=
  inferInstanceAs (Std.TransCmp (compareOn fun key : CoarseKey => key.word >>> 16))

/-- A key that is less than another one has the smaller word. -/
theorem word_lt {a b : CoarseKey} (h : compare a b = .lt) :
  a.word < b.word
  := by
  have hlt : a.word >>> 16 < b.word >>> 16 := Std.compare_eq_lt.mp h
  rw [UInt32.lt_iff_toNat_lt, UInt32.toNat_shiftRight, UInt32.toNat_shiftRight,
    Nat.shiftRight_eq_div_pow, Nat.shiftRight_eq_div_pow] at hlt
  apply UInt32.lt_iff_toNat_lt.mpr
  apply Nat.lt_of_not_ge
  intro hle
  apply Nat.not_lt.mpr (Nat.div_le_div_right hle) hlt

theorem follows (keys : List CoarseKey) :
  DigitSpan.low32.Follows keys
  := by
  apply DigitSpan.follows_of_word (fun key => key.word.toUInt64) (fun _ => rfl) (by decide)
    (by decide)
  · intro key _
    rw [UInt32.toNat_toUInt64]
    apply key.word.toNat_lt
  · intro a _ b _ hab
    apply UInt64.lt_iff_toNat_lt.mpr
    simpa using UInt32.lt_iff_toNat_lt.mp (word_lt hab)

end CoarseKey

end LockstepSort
