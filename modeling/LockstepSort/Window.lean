/-!
# Windows

A window is a stretch of consecutive positions among `n`.  A pivot in a window leaves two
windows, the one before it and the one after it.
-/

namespace LockstepSort

/-- The bound of all sizes and positions, which are counted in 64 bits. -/
def sizeLimit : Nat := 18446744073709551616

/-- The positions from `offset` on, `length` in number, among `n`. -/
structure Window (n : Nat) where
  /-- The first position. -/
  offset : Nat
  /-- The number of positions. -/
  length : Nat
  fits : offset + length ≤ n
  deriving DecidableEq, Repr

namespace Window

variable {n : Nat}

/-- The window of all positions. -/
def whole (n : Nat) : Window n where
  offset := 0
  length := n
  fits := by omega

/-- The position behind a window, if it can be counted. -/
def stop? (offset length : Nat) : Option Nat :=
  if offset + length < sizeLimit then some (offset + length) else none

/-- The window of `length` positions from `offset` on, if all of them are among `n`. -/
def of? (offset length n : Nat) : Option (Window n) :=
  match stop? offset length with
  | some _ =>
    if fits : offset + length ≤ n then some ⟨offset, length, fits⟩ else none
  | none => none

/-- The positions of `w` before its pivot. -/
def before (w : Window n) (pivot : Fin w.length) : Window n where
  offset := w.offset
  length := pivot
  fits := by
    have := w.fits
    omega

/-- The positions of `w` behind its pivot. -/
def after (w : Window n) (pivot : Fin w.length) : Window n where
  offset := w.offset + pivot + 1
  length := w.length - pivot - 1
  fits := by
    have := w.fits
    omega

/-- The shorter of the two windows that a pivot leaves; of two that are equally long, the one
behind it. -/
def shorter (w : Window n) (pivot : Fin w.length) : Window n :=
  if (w.before pivot).length < (w.after pivot).length then w.before pivot else w.after pivot

/-- The other one of the two windows. -/
def longer (w : Window n) (pivot : Fin w.length) : Window n :=
  if (w.before pivot).length < (w.after pivot).length then w.after pivot else w.before pivot

/-- Where positions can be counted, a window is refused exactly when it leaves them. -/
theorem of?_eq_none_iff {offset length n : Nat} (hn : n < sizeLimit) :
  of? offset length n = none ↔ n < offset + length
  := by
  unfold of? stop?
  by_cases hlimit : offset + length < sizeLimit
  · simp [hlimit]
  · simp only [hlimit, if_false, true_iff]
    omega

theorem of?_eq_some {offset length n : Nat} {w : Window n} (h : of? offset length n = some w) :
  w.offset = offset ∧ w.length = length
  := by
  unfold of? at h
  split at h
  · split at h
    · obtain rfl := Option.some.inj h
      constructor <;> rfl
    · contradiction
  · contradiction

theorem before_length_lt (w : Window n) (pivot : Fin w.length) :
  (w.before pivot).length < w.length
  := pivot.isLt

theorem after_length_lt (w : Window n) (pivot : Fin w.length) :
  (w.after pivot).length < w.length
  := by
  have := pivot.isLt
  simp only [after]
  omega

theorem shorter_longer_of_lt (w : Window n) {pivot : Fin w.length}
    (h : pivot.val < w.length - pivot - 1) :
  w.shorter pivot = w.before pivot ∧ w.longer pivot = w.after pivot
  := ⟨if_pos h, if_pos h⟩

theorem shorter_longer_of_not_lt (w : Window n) {pivot : Fin w.length}
    (h : ¬ pivot.val < w.length - pivot - 1) :
  w.shorter pivot = w.after pivot ∧ w.longer pivot = w.before pivot
  := ⟨if_neg h, if_neg h⟩

/-- One of the two windows is the shorter one and the other the longer one. -/
theorem shorter_longer_cases (w : Window n) (pivot : Fin w.length) :
  w.shorter pivot = w.before pivot ∧ w.longer pivot = w.after pivot
    ∨ w.shorter pivot = w.after pivot ∧ w.longer pivot = w.before pivot
  := by
  by_cases hlt : pivot.val < w.length - pivot - 1
  · left
    apply w.shorter_longer_of_lt hlt
  · right
    apply w.shorter_longer_of_not_lt hlt

/-- The two windows have no position in common. -/
theorem before_stop_le_after (w : Window n) (pivot : Fin w.length) :
  (w.before pivot).offset + (w.before pivot).length ≤ (w.after pivot).offset
  := by
  simp only [before, after]
  omega

theorem shorter_longer_disjoint (w : Window n) (pivot : Fin w.length) :
  (w.shorter pivot).offset + (w.shorter pivot).length ≤ (w.longer pivot).offset
    ∨ (w.longer pivot).offset + (w.longer pivot).length ≤ (w.shorter pivot).offset
  := by
  have hdisjoint := w.before_stop_le_after pivot
  obtain ⟨hshorter, hlonger⟩ | ⟨hshorter, hlonger⟩ := w.shorter_longer_cases pivot <;>
    rw [hshorter, hlonger]
  · left
    apply hdisjoint
  · right
    apply hdisjoint

theorem shorter_length_lt (w : Window n) (pivot : Fin w.length) :
  (w.shorter pivot).length < w.length
  := by
  obtain ⟨h, -⟩ | ⟨h, -⟩ := w.shorter_longer_cases pivot <;> rw [h]
  · apply before_length_lt
  · apply after_length_lt

theorem longer_length_lt (w : Window n) (pivot : Fin w.length) :
  (w.longer pivot).length < w.length
  := by
  obtain ⟨-, h⟩ | ⟨-, h⟩ := w.shorter_longer_cases pivot <;> rw [h]
  · apply after_length_lt
  · apply before_length_lt

end Window

end LockstepSort
