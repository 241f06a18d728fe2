import LockstepSort.Proofs.Arrangement
import Mathlib.Data.List.Forall2

/-!
# Pairs that are sorted alike

A likeness relates pairs whose keys compare alike and have the same digits and the same sign,
whatever else they are, and whatever their values are.  A sort cannot tell such pairs apart:
what it does to columns of them, position by position, is the same.  This module says so of
the operations on pairs, of splits and of insertion.
-/

namespace LockstepSort

section

variable {K K' V V' : Type} [DigitKey K] [DigitKey K'] {P : K × V → K' × V' → Prop}

/-- A relation between pairs under which their keys compare alike, have the same digits, and are
negative alike. -/
structure Likeness (P : K × V → K' × V' → Prop) : Prop where
  bits : DigitKey.bits K' = DigitKey.bits K
  compare {a b : K × V} {a' b' : K' × V'} :
    P a a' → P b b' → compare a'.1 b'.1 = compare a.1 b.1
  digit {a : K × V} {a' : K' × V'} : P a a' → ∀ place < DigitKey.places K,
    DigitKey.digit a'.1 place = DigitKey.digit a.1 place
  isNegative {a : K × V} {a' : K' × V'} :
    P a a' → DigitKey.isNegative a'.1 = DigitKey.isNegative a.1

/-- Every pair is like itself. -/
theorem Likeness.eq : Likeness (Eq : K × V → K × V → Prop)
  where
  bits := rfl
  compare := by
    rintro a b _ _ rfl rfl
    rfl
  digit := by
    rintro a _ rfl place _
    rfl
  isNegative := by
    rintro a _ rfl
    rfl

theorem Likeness.precedes (hP : Likeness P) {a b : K × V} {a' b' : K' × V'} (ha : P a a')
    (hb : P b b') (direction : Direction) :
  direction.precedes a'.1 b'.1 = direction.precedes a.1 b.1
  := by
  unfold Direction.precedes
  rw [hP.compare ha hb]

theorem Likeness.places (hP : Likeness P) :
  DigitKey.places K' = DigitKey.places K
  := congrArg (· / digitBits) hP.bits

theorem Likeness.passes (hP : Likeness P) (span : DigitSpan) :
  span.passes K' = span.passes K
  := by
  unfold DigitSpan.passes
  rw [hP.places]

theorem Likeness.digitAt (hP : Likeness P) {a : K × V} {a' : K' × V'} (ha : P a a')
    {place : Nat} (hplace : place < DigitKey.places K) :
  digitAt a'.1 place = digitAt a.1 place
  := by
  unfold LockstepSort.digitAt
  rw [hP.digit ha place hplace]

theorem Likeness.digitValue (hP : Likeness P) {a : K × V} {a' : K' × V'} (ha : P a a')
    {places : Nat} (hplaces : places ≤ DigitKey.places K) :
  digitValue places a'.1 = digitValue places a.1
  := by
  induction places with
  | zero => rfl
  | succ place ih =>
      rw [LockstepSort.digitValue, LockstepSort.digitValue, ih (by omega), hP.digitAt ha hplaces]

end

namespace Pairs

/-! ### Columns of like pairs -/

section

variable {K K' V V' : Type} {n : Nat} {P : K × V → K' × V' → Prop} {pairs : Pairs K V n}
  {pairs' : Pairs K' V' n}

/-- At each position, the pairs of two columns are related. -/
def Like (P : K × V → K' × V' → Prop) (pairs : Pairs K V n) (pairs' : Pairs K' V' n) : Prop :=
  ∀ i, P (pairs.get i) (pairs'.get i)

theorem like_iff_forall₂ :
  pairs.Like P pairs' ↔ List.Forall₂ P pairs.toList pairs'.toList
  := by
  rw [List.forall₂_iff_get]
  constructor
  · intro h
    refine ⟨by simp, ?_⟩
    intro i hi hi'
    rw [length_toList] at hi
    simp only [List.get_eq_getElem, getElem_toList _ hi]
    apply h ⟨i, hi⟩
  · rintro ⟨-, h⟩ i
    have hi := h i (by simp) (by simp)
    simp only [List.get_eq_getElem, getElem_toList _ i.isLt] at hi
    apply hi

theorem like_eq_iff {pairs' : Pairs K V n} :
  pairs.Like Eq pairs' ↔ pairs = pairs'
  := by
  rw [like_iff_forall₂, List.forall₂_eq_eq_eq]
  constructor
  · apply toList_injective
  · rintro rfl
    rfl

theorem get_eq_getElem (pairs : Pairs K V n) (i : Fin n) :
  pairs.get i = (pairs.keys[i.val], pairs.values[i.val])
  := rfl

theorem get_set (pairs : Pairs K V n) (i j : Fin n) (key : K) (value : V) :
  (pairs.set i key value).get j = if i = j then (key, value) else pairs.get j
  := by
  simp only [get_eq_getElem, set, Vector.getElem_set, Fin.ext_iff]
  split_ifs <;> rfl

theorem get_slice (pairs : Pairs K V n) (w : Window n) (i : Fin w.length) :
  (pairs.slice w).get i = pairs.get ⟨w.offset + i, by have := w.fits; omega⟩
  := by
  simp [get_eq_getElem, slice]

theorem get_replace (pairs : Pairs K V n) (w : Window n) (range : Pairs K V w.length)
    (i : Fin n) :
  (pairs.replace w range).get i
    = if h : w.offset ≤ i ∧ i < w.offset + w.length then range.get ⟨i - w.offset, by omega⟩
      else pairs.get i
  := by
  simp only [get_eq_getElem, replace, getElem_overwrite]
  split_ifs <;> rfl

theorem Like.swap (h : pairs.Like P pairs') (i j : Fin n) :
  (pairs.swap i j).Like P (pairs'.swap i j)
  := by
  intro k
  rw [get_swap, get_swap]
  split_ifs <;> apply h

theorem Like.set (h : pairs.Like P pairs') (i : Fin n) {a : K × V} {a' : K' × V'}
    (ha : P a a') :
  (pairs.set i a.1 a.2).Like P (pairs'.set i a'.1 a'.2)
  := by
  intro k
  rw [get_set, get_set]
  split_ifs
  · apply ha
  · apply h

theorem Like.slice (h : pairs.Like P pairs') (w : Window n) :
  (pairs.slice w).Like P (pairs'.slice w)
  := by
  intro k
  rw [get_slice, get_slice]
  apply h

theorem Like.replace (h : pairs.Like P pairs') {w : Window n} {range : Pairs K V w.length}
    {range' : Pairs K' V' w.length} (hrange : range.Like P range') :
  (pairs.replace w range).Like P (pairs'.replace w range')
  := by
  intro k
  rw [get_replace, get_replace]
  split_ifs
  · apply hrange
  · apply h

end

/-! ### Sorting like pairs -/

section

variable {K K' V V' : Type} [DigitKey K] [DigitKey K'] {n : Nat}
  {P : K × V → K' × V' → Prop} {direction : Direction} {pairs : Pairs K V n}
  {pairs' : Pairs K' V' n}

/-- Whether one of two pairs precedes the other shows in like pairs as well. -/
theorem Like.precedes (hP : Likeness P) (h : pairs.Like P pairs') {i j : Nat} (hi : i < n)
    (hj : j < n) :
  direction.precedes pairs'.keys[i] pairs'.keys[j] = direction.precedes pairs.keys[i] pairs.keys[j]
  := hP.precedes (h ⟨i, hi⟩) (h ⟨j, hj⟩) direction

/-- The same position is chosen for the pivot. -/
theorem Like.pivotPosition (hP : Likeness P) (h : pairs.Like P pairs') (nonempty : 0 < n) :
  pairs'.pivotPosition nonempty = pairs.pivotPosition nonempty
  := by
  have hcompare (i j : Fin n) : compare (pairs'.keys.get i) (pairs'.keys.get j)
      = compare (pairs.keys.get i) (pairs.keys.get j) := hP.compare (h i) (h j)
  unfold Pairs.pivotPosition medianOfThree
  simp only [hcompare]

/-- The scan finds the same pairs before the pivot. -/
theorem Like.gather (hP : Likeness P) (h : pairs.Like P pairs') (direction : Direction)
    {pivot : K × V} {pivot' : K' × V'} (hpivot : P pivot pivot') {i j : Nat} (hij : i < j)
    (hj : j ≤ n) :
  (pairs.gather direction pivot.1 i j hij hj).1.Like P
      (pairs'.gather direction pivot'.1 i j hij hj).1
    ∧ (pairs'.gather direction pivot'.1 i j hij hj).2
      = (pairs.gather direction pivot.1 i j hij hj).2
  := by
  have hprecedes {pairs : Pairs K V n} {pairs' : Pairs K' V' n} (h : pairs.Like P pairs') {j : Nat}
      (hj : j < n) : direction.precedes pairs'.keys[j] pivot'.1
        = direction.precedes pairs.keys[j] pivot.1 :=
    hP.precedes (h ⟨j, hj⟩) hpivot direction
  induction pairs, i, j, hij, hj using gather.induct direction pivot.1 generalizing pairs' with
  | case1 pairs i j hij hj hlt hkey ih =>
      have hkey' := (hprecedes h hlt).trans hkey
      rw [gather.eq_def direction pivot.1 pairs, dif_pos hlt, if_pos hkey,
        gather.eq_def direction pivot'.1 pairs', dif_pos hlt, if_pos hkey']
      apply ih (h.swap _ _)
  | case2 pairs i j hij hj hlt hkey ih =>
      have hkey' : ¬ direction.precedes pairs'.keys[j] pivot'.1 := by rwa [hprecedes h hlt]
      rw [gather.eq_def direction pivot.1 pairs, dif_pos hlt, if_neg hkey,
        gather.eq_def direction pivot'.1 pairs', dif_pos hlt, if_neg hkey']
      apply ih h
  | case3 pairs i j hij hj hlt =>
      rw [Pairs.gather, dif_neg hlt, Pairs.gather, dif_neg hlt]
      exact ⟨h, rfl⟩

/-- Like pairs are split alike, around the same position. -/
theorem Like.partition (hP : Likeness P) (h : pairs.Like P pairs') {nonempty : 0 < n}
    {sides : Pairs K V n} {pivot : Fin n}
    (hsides : pairs.partition direction nonempty = (sides, pivot)) :
  ∃ sides', pairs'.partition direction nonempty = (sides', pivot) ∧ sides.Like P sides'
  := by
  have hposition := h.pivotPosition hP nonempty
  have hparked := h.swap ⟨0, nonempty⟩ (pairs.pivotPosition nonempty)
  have hgather := hparked.gather hP direction (h (pairs.pivotPosition nonempty))
    Nat.zero_lt_one nonempty
  obtain ⟨rfl, rfl⟩ := Prod.mk.inj hsides
  refine ⟨_, ?_, hgather.1.swap _ _⟩
  unfold Pairs.partition
  rw [hposition]
  apply Prod.ext
  · exact congrArg (Pairs.swap _ ⟨0, nonempty⟩) hgather.2
  · exact hgather.2

theorem Like.sink (hP : Likeness P) (h : pairs.Like P pairs') {i : Nat} (hi : i < n) :
  (pairs.sink direction i hi).Like P (pairs'.sink direction i hi)
  := by
  induction i generalizing pairs pairs' with
  | zero => apply h
  | succ i ih =>
      unfold Pairs.sink
      rw [h.precedes hP]
      split
      · apply ih (h.swap _ _)
      · apply h

theorem Like.insertionSort (hP : Likeness P) (h : pairs.Like P pairs') (direction : Direction) :
  (pairs.insertionSort direction).Like P (pairs'.insertionSort direction)
  := by
  have aux (k : Nat) (hk : k ≤ n) :
      (k.fold (fun i h sorted => sorted.sink direction i (by omega)) pairs).Like P
        (k.fold (fun i h sorted => sorted.sink direction i (by omega)) pairs') := by
    induction k with
    | zero => apply h
    | succ k ih =>
        rw [Nat.fold_succ, Nat.fold_succ]
        apply (ih (by omega)).sink hP
  apply aux n (Nat.le_refl n)

/-- Like pairs are left in the same order. -/
theorem Like.arranged (hP : Likeness P) (h : pairs.Like P pairs') (strategy : Strategy) :
  List.Forall₂ P (pairs.arranged strategy) (pairs'.arranged strategy)
  := by
  induction n, pairs using arranged.induct (K := K) strategy with
  | case1 n pairs haction =>
      rw [arranged_of_leave haction, arranged_of_leave haction]
      apply like_iff_forall₂.mp h
  | case2 n pairs haction =>
      rw [arranged_of_insertion haction, arranged_of_insertion haction]
      apply like_iff_forall₂.mp (h.insertionSort hP strategy.direction)
  | case3 n pairs haction =>
      rw [arranged_of_radix haction, arranged_of_radix haction, hP.passes]
      apply Direction.forall₂_stableSort (like_iff_forall₂.mp h)
      intro a a' ha
      apply hP.digitValue ha strategy.span.passes_le_places
  | case4 n pairs haction parted pivot hparted ihfront ihback =>
      obtain ⟨parted', hparted', hparts⟩ := h.partition hP hparted
      rw [arranged_of_split haction hparted, arranged_of_split haction hparted']
      apply List.rel_append
      · apply ihfront (hparts.slice _)
      · apply List.Forall₂.cons (hparts pivot)
        apply ihback (hparts.slice _)

end

end Pairs

end LockstepSort
