import LockstepSort.Pairs.Lemmas
import LockstepSort.Partition
import Mathlib.Data.List.Basic

/-!
# What a split around a pivot leaves behind

A split exchanges pairs only, so it keeps them all.  Afterwards the pivot, whose key is the
one that was chosen, stands behind exactly the pairs that precede it.
-/

namespace LockstepSort.Pairs

variable {K V : Type} {n : Nat}

theorem swap_perm (pairs : Pairs K V n) (i j : Fin n) :
  (pairs.swap i j).toList.Perm pairs.toList
  := by
  have hi : i < pairs.toList.length := by simp
  have hj : j < pairs.toList.length := by simp
  have h := List.set_set_perm hi hj
  rw [getElem_toList pairs i.isLt, getElem_toList pairs j.isLt] at h
  rw [toList_swap]
  apply h

theorem getElem_keys_swap (pairs : Pairs K V n) (i j : Fin n) {k : Nat} (hk : k < n) :
  (pairs.swap i j).keys[k]
    = if k = i then pairs.keys[j.val] else if k = j then pairs.keys[i.val] else pairs.keys[k]
  := Vector.getElem_swap i.isLt j.isLt hk

theorem getElem_values_swap (pairs : Pairs K V n) (i j : Fin n) {k : Nat} (hk : k < n) :
  (pairs.swap i j).values[k]
    = if k = i then pairs.values[j.val] else if k = j then pairs.values[i.val]
      else pairs.values[k]
  := Vector.getElem_swap i.isLt j.isLt hk

theorem ext_getElem {pairs pairs' : Pairs K V n}
    (h : ∀ k (hk : k < n), pairs.keys[k] = pairs'.keys[k] ∧ pairs.values[k] = pairs'.values[k]) :
  pairs = pairs'
  := by
  obtain ⟨keys, values⟩ := pairs
  obtain ⟨keys', values'⟩ := pairs'
  rw [mk.injEq]
  exact ⟨Vector.ext fun k hk => (h k hk).1, Vector.ext fun k hk => (h k hk).2⟩

/-- Exchanging two pairs a second time puts them back. -/
@[simp]
theorem swap_swap (pairs : Pairs K V n) (i j : Fin n) :
  (pairs.swap i j).swap i j = pairs
  := by
  apply ext_getElem
  intro k hk
  simp only [getElem_keys_swap, getElem_values_swap]
  split_ifs <;> simp_all

@[simp]
theorem swap_self (pairs : Pairs K V n) (i : Fin n) :
  pairs.swap i i = pairs
  := by
  apply ext_getElem
  intro k hk
  simp only [getElem_keys_swap, getElem_values_swap]
  split_ifs <;> simp_all

section

variable [Ord K] {direction : Direction} {pivot : K} {pairs : Pairs K V n} {i j : Nat}

/-- Of the pairs at the positions from 1 to before `j`, exactly those up to position `i`
precede the pivot. -/
structure Gathered (direction : Direction) (pivot : K) (pairs : Pairs K V n) (i j : Nat) :
    Prop where
  preceding (k : Nat) (hk : k < n) : 1 ≤ k → k ≤ i → direction.precedes pairs.keys[k] pivot
  others (k : Nat) (hk : k < n) : i < k → k < j → ¬ direction.precedes pairs.keys[k] pivot

theorem Gathered.stay
    (h : Gathered direction pivot pairs i j) (hj : j < n)
    (hkey : ¬ direction.precedes pairs.keys[j] pivot) :
  Gathered direction pivot pairs i (j + 1)
  where
  preceding := h.preceding
  others k hk hik hkj := by
    obtain rfl | hne := Nat.eq_or_lt_of_le (Nat.le_of_lt_succ hkj)
    · apply hkey
    · apply h.others k hk hik hne

theorem Gathered.join
    (h : Gathered direction pivot pairs i j) (hi : i + 1 < n) (hij : i < j) (hj : j < n)
    (hkey : direction.precedes pairs.keys[j] pivot) :
  Gathered direction pivot (pairs.swap ⟨i + 1, hi⟩ ⟨j, hj⟩) (i + 1) (j + 1)
  where
  preceding k hk hfirst hki := by
    rw [getElem_keys_swap]
    by_cases hlast : k = i + 1
    · rw [if_pos hlast]
      apply hkey
    · rw [if_neg hlast, if_neg (show k ≠ j by omega)]
      apply h.preceding k hk hfirst (by omega)
  others k hk hik hkj := by
    rw [getElem_keys_swap, if_neg (show k ≠ i + 1 by omega)]
    by_cases hlast : k = j
    · rw [if_pos hlast]
      apply h.others (i + 1) _ (by omega) (by omega)
    · rw [if_neg hlast]
      apply h.others k hk (by omega) (by omega)

/-- The scan gathers the pairs that precede the pivot, and leaves the first pair alone. -/
theorem gather_spec
    (direction : Direction) (pivot : K) (pairs : Pairs K V n) (hij : i < j) (hj : j ≤ n)
    (h : Gathered direction pivot pairs i j) :
  Gathered direction pivot (pairs.gather direction pivot i j hij hj).1
      (pairs.gather direction pivot i j hij hj).2 n
    ∧ (pairs.gather direction pivot i j hij hj).1.keys[0] = pairs.keys[0]
    ∧ (pairs.gather direction pivot i j hij hj).1.toList.Perm pairs.toList
  := by
  induction pairs, i, j, hij, hj using gather.induct direction pivot with
  | case1 pairs i j hij hj hlt hkey ih =>
      rw [gather, dif_pos hlt, if_pos hkey]
      obtain ⟨hgathered, hfirst, hperm⟩ := ih (h.join (by omega) hij hlt hkey)
      refine ⟨hgathered, ?_, hperm.trans (swap_perm _ _ _)⟩
      rw [hfirst, getElem_keys_swap, if_neg (show 0 ≠ i + 1 by omega),
        if_neg (show 0 ≠ j by omega)]
  | case2 pairs i j hij hj hlt hkey ih =>
      rw [gather, dif_pos hlt, if_neg hkey]
      apply ih (h.stay hlt hkey)
  | case3 pairs i j hij hj hlt =>
      obtain rfl : j = n := by omega
      rw [gather, dif_neg hlt]
      exact ⟨h, rfl, List.Perm.refl _⟩

/-- The pair at the position of the pivot stands behind exactly the pairs that precede it. -/
structure Parted (direction : Direction) (pairs : Pairs K V n) (pivot : Fin n) : Prop where
  before (k : Nat) (hk : k < n) :
    k < pivot → direction.precedes pairs.keys[k] (pairs.keys.get pivot)
  after (k : Nat) (hk : k < n) :
    pivot < k → ¬ direction.precedes pairs.keys[k] (pairs.keys.get pivot)

/-- The scan leaves pairs that precede the pivot where they are, if none before them does not. -/
theorem gather_of_preceding {m : Nat} (hjm : j ≤ m) (hm : m < n)
    (h : ∀ k (hk : k < n), j < k → k ≤ m → direction.precedes pairs.keys[k] pivot) :
  pairs.gather direction pivot j (j + 1) (by omega) (by omega)
    = pairs.gather direction pivot m (m + 1) (by omega) hm
  := by
  induction hjm with
  | refl => rfl
  | @step m hjm ih =>
      rw [ih (by omega) fun k hk hjk hkm => h k hk hjk (by omega), gather, dif_pos hm,
        if_pos (h (m + 1) hm (Nat.lt_succ_of_le hjm) (Nat.le_refl _)), swap_self]

/-- The scan leaves pairs that do not precede the pivot where they are. -/
theorem gather_of_others (hij : i < j) (hj : j ≤ n)
    (h : ∀ k (hk : k < n), j ≤ k → ¬ direction.precedes pairs.keys[k] pivot) :
  pairs.gather direction pivot i j hij hj = (pairs, ⟨i, by omega⟩)
  := by
  induction pairs, i, j, hij, hj using gather.induct direction pivot with
  | case1 pairs i j hij hj hlt hkey ih =>
      apply absurd hkey
      apply h j hlt (Nat.le_refl j)
  | case2 pairs i j hij hj hlt hkey ih =>
      rw [gather, dif_pos hlt, if_neg hkey]
      apply ih fun k hk hjk => h k hk (by omega)
  | case3 pairs i j hij hj hlt => rw [gather, dif_neg hlt]

/-- A split keeps all pairs, and parts them by the key that it chose for the pivot. -/
theorem partition_spec (direction : Direction) (pairs : Pairs K V n) (h : 0 < n) :
  Parted direction (pairs.partition direction h).1 (pairs.partition direction h).2
    ∧ (pairs.partition direction h).1.keys.get (pairs.partition direction h).2
      = pairs.keys.get (pairs.pivotPosition h)
    ∧ (pairs.partition direction h).1.toList.Perm pairs.toList
  := by
  let pivot := pairs.keys.get (pairs.pivotPosition h)
  let parked := pairs.swap ⟨0, h⟩ (pairs.pivotPosition h)
  obtain ⟨hgathered, hfirst, hperm⟩ :=
    gather_spec direction pivot parked Nat.zero_lt_one h ⟨by omega, by omega⟩
  generalize hgather : parked.gather direction pivot 0 1 Nat.zero_lt_one h = scanned
    at hgathered hfirst hperm
  obtain ⟨gathered, i⟩ := scanned
  have hpartition : pairs.partition direction h = (gathered.swap ⟨0, h⟩ i, i) := by
    rw [partition, hgather]
  have hpivot : (gathered.swap ⟨0, h⟩ i).keys.get i = pivot := by
    have hparked : gathered.keys[0] = pivot := by
      apply hfirst.trans
      rw [getElem_keys_swap, if_pos rfl]
      rfl
    rw [← hparked]
    apply Eq.trans (getElem_keys_swap gathered ⟨0, h⟩ i i.isLt)
    by_cases hi : i.val = 0
    · simp only [hi, if_true]
    · rw [if_neg hi, if_pos rfl]
  rw [hpartition]
  refine ⟨⟨?_, ?_⟩, hpivot, ?_⟩
  · intro k hk hki
    rw [hpivot, getElem_keys_swap]
    by_cases hzero : k = 0
    · rw [if_pos hzero]
      apply hgathered.preceding i i.isLt (Nat.one_le_of_lt hki) (Nat.le_refl _)
    · rw [if_neg hzero, if_neg (Nat.ne_of_lt hki)]
      apply hgathered.preceding k hk (Nat.pos_of_ne_zero hzero) (Nat.le_of_lt hki)
  · intro k hk hik
    rw [hpivot, getElem_keys_swap, if_neg (Nat.ne_of_gt (Nat.zero_lt_of_lt hik)),
      if_neg (Nat.ne_of_gt hik)]
    apply hgathered.others k hk hik hk
  · apply (swap_perm _ _ _).trans
    apply hperm.trans
    apply swap_perm

/-- A split leaves pairs as they are that are parted around the pivot already. -/
theorem partition_of_parted
    {h : 0 < n} (hparted : Parted direction pairs (pairs.pivotPosition h)) :
  pairs.partition direction h = (pairs, pairs.pivotPosition h)
  := by
  generalize hpivot : pairs.pivotPosition h = pivot at hparted
  have hkeys {k : Nat} (hk : k < n) := getElem_keys_swap pairs ⟨0, h⟩ pivot hk
  have hgather : (pairs.swap ⟨0, h⟩ pivot).gather direction (pairs.keys.get pivot) 0 1
      Nat.zero_lt_one h = (pairs.swap ⟨0, h⟩ pivot, pivot) := by
    rw [gather_of_preceding (Nat.zero_le _) pivot.isLt, gather_of_others]
    · intro k hk hpk
      rw [hkeys, if_neg (show k ≠ 0 by omega), if_neg (show k ≠ pivot by omega)]
      apply hparted.after k hk hpk
    · intro k hk hzero hkp
      rw [hkeys, if_neg (show k ≠ 0 by omega)]
      -- What stood first is parked where the pivot was taken from.
      split
      · apply hparted.before 0 h (by omega)
      · apply hparted.before k hk (by omega)
  simp only [partition, hpivot, hgather, swap_swap]

end

end LockstepSort.Pairs
