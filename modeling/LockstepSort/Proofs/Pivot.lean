import LockstepSort.Proofs.Arrangement

/-!
# The median as a pivot

Of the first, the middle and the last key, the one in the middle of their order is chosen for the
pivot.  A split puts it behind exactly the pairs that precede it, so their number is its position;
and if no two of the three keys tie, one of the other two ends up before it and one behind it.
-/

namespace LockstepSort

/-! ### Medians -/

section

variable {K : Type} [Ord K] {a b c key key' : K} {candidates : List K}

/-- A key is the middle one of three when these are put in ascending order. -/
def IsMedian (key : K) (candidates : List K) : Prop :=
  ∃ low high, [low, key, high].Perm candidates
    ∧ [low, key, high].Pairwise fun a b => (compare a b).isLE

theorem isMedian_of_isLE [Std.TransOrd K] {low high : K}
    (hperm : [low, key, high].Perm candidates) (hlow : (compare low key).isLE)
    (hhigh : (compare key high).isLE) :
  IsMedian key candidates
  := by
  use low, high, hperm
  simpa [hlow, hhigh] using Std.TransCmp.isLE_trans hlow hhigh

theorem isLE_of_not_isLT [Std.OrientedOrd K] (h : ¬ (compare a b).isLT) :
  (compare b a).isLE
  := by
  apply Std.OrientedCmp.isGE_iff_isLE.mp
  cases hab : compare a b <;> simp_all

/-- The position that is chosen among three holds the median of the keys there. -/
theorem isMedian_medianOfThree [Std.TransOrd K] {n : Nat} (keys : Vector K n) (i j k : Fin n) :
  IsMedian (keys.get (medianOfThree keys i j k)) [keys.get i, keys.get j, keys.get k]
  := by
  simp only [medianOfThree]
  generalize ha : keys.get i = a
  generalize hb : keys.get j = b
  generalize hc : keys.get k = c
  split
  next hab =>
      have hab := Ordering.isLE_of_eq_lt (Ordering.isLT_iff_eq_lt.mp hab)
      split
      next hbc =>
          rw [hb]
          apply isMedian_of_isLE (List.Perm.refl _) hab hbc
      next hbc =>
          have hcb := Ordering.isLE_of_eq_lt (Std.OrientedCmp.lt_of_not_isLE hbc)
          split
          next hac =>
              have hac := Ordering.isLE_of_eq_lt (Ordering.isLT_iff_eq_lt.mp hac)
              rw [hc]
              apply isMedian_of_isLE ((List.Perm.swap b c []).cons a) hac hcb
          next hac =>
              have hca := isLE_of_not_isLT hac
              rw [ha]
              apply isMedian_of_isLE (@List.perm_append_comm K [c] [a, b]) hca hab
  next hab =>
      have hba := isLE_of_not_isLT hab
      split
      next hac =>
          rw [ha]
          apply isMedian_of_isLE (List.Perm.swap a b [c]) hba hac
      next hac =>
          have hca := Ordering.isLE_of_eq_lt (Std.OrientedCmp.lt_of_not_isLE hac)
          split
          next hbc =>
              have hbc := Ordering.isLE_of_eq_lt (Ordering.isLT_iff_eq_lt.mp hbc)
              rw [hc]
              apply isMedian_of_isLE (@List.perm_append_comm K [b, c] [a]) hbc hca
          next hbc =>
              rw [hb]
              apply isMedian_of_isLE (List.reverse_perm [a, b, c]) (isLE_of_not_isLT hbc) hba

/-- No median comes before another one. -/
theorem IsMedian.not_lt [Std.TransOrd K] (h : IsMedian key candidates)
    (h' : IsMedian key' candidates) :
  compare key key' ≠ .lt
  := by
  intro hlt
  obtain ⟨low, high, hperm, hordered⟩ := h
  obtain ⟨low', high', hperm', hordered'⟩ := h'
  simp only [List.pairwise_cons, List.mem_cons, List.not_mem_nil, or_false, forall_eq_or_imp,
    forall_eq] at hordered hordered'
  -- Above `key` there is at most one of the candidates, and there are two from `key'` on.
  have hcount := (hperm.trans hperm'.symm).countP_eq fun x => compare key x == .lt
  have hlow : compare key low ≠ .lt := Std.OrientedCmp.not_lt_of_isLE hordered.1.1
  have hhigh' : compare key high' = .lt := Std.TransCmp.lt_of_lt_of_isLE hlt hordered'.2.1
  simp [List.countP_cons, hlow, hlt, hhigh', Std.ReflCmp.compare_self] at hcount
  split at hcount <;> omega

/-- Two medians tie. -/
theorem IsMedian.compare_eq [Std.TransOrd K] (h : IsMedian key candidates)
    (h' : IsMedian key' candidates) :
  compare key key' = .eq
  := by
  cases hcompare : compare key key' with
  | lt => apply absurd hcompare (h.not_lt h')
  | eq => rfl
  | gt => apply absurd (Std.OrientedCmp.gt_iff_lt.mp hcompare) (h'.not_lt h)

/-- If no two of three keys tie, the other two lie on either side of the median. -/
theorem IsMedian.exists_lt [Std.TransOrd K] (h : IsMedian key candidates)
    (hdistinct : candidates.Pairwise fun a b => compare a b ≠ .eq) :
  ∃ low ∈ candidates, ∃ high ∈ candidates, compare low key = .lt ∧ compare key high = .lt
  := by
  obtain ⟨low, high, hperm, hordered⟩ := h
  have hsymm {a b : K} (hne : compare a b ≠ .eq) : compare b a ≠ .eq := by
    rwa [Ne, Std.OrientedCmp.eq_comm]
  have hdistinct := (hperm.pairwise_iff hsymm).mpr hdistinct
  simp only [List.pairwise_cons, List.mem_cons, List.not_mem_nil, or_false, forall_eq_or_imp,
    forall_eq] at hordered hdistinct
  have hlt {a b : K} (hle : (compare a b).isLE) (hne : compare a b ≠ .eq) : compare a b = .lt := by
    cases hab : compare a b <;> simp_all
  refine ⟨low, hperm.subset (by simp), high, hperm.subset (by simp), ?_, ?_⟩
  · apply hlt hordered.1.1 hdistinct.1.1
  · apply hlt hordered.2.1 hdistinct.2.1

/-- If no two of three keys tie, one of the other two precedes the median and one follows it; which
of them depends on the direction. -/
theorem IsMedian.exists_precedes [Std.TransOrd K] (h : IsMedian key candidates)
    (hdistinct : candidates.Pairwise fun a b => compare a b ≠ .eq) (direction : Direction) :
  ∃ first ∈ candidates, ∃ last ∈ candidates,
    direction.precedes first key ∧ direction.precedes key last
  := by
  obtain ⟨low, hlow, high, hhigh, hlowlt, hhighlt⟩ := h.exists_lt hdistinct
  cases direction with
  | ascending =>
      use low, hlow, high, hhigh
      simp [Direction.precedes, hlowlt, hhighlt]
  | descending =>
      use high, hhigh, low, hlow
      rw [← Std.OrientedCmp.gt_iff_lt] at hlowlt hhighlt
      simp [Direction.precedes, hlowlt, hhighlt]

end

/-! ### Parted pairs -/

namespace Pairs

variable {K V : Type} [Ord K] {n : Nat} {direction : Direction} {pairs : Pairs K V n}
  {pivot : Fin n} {key : K}

/-- The position of the pivot is the number of keys that precede it. -/
theorem Parted.countP_eq [Std.ReflOrd K] (h : Parted direction pairs pivot) :
  pairs.keys.toList.countP (fun key => direction.precedes key (pairs.get pivot).1) = pivot
  := by
  obtain ⟨hbefore, hafter⟩ := parted_iff.mp h
  rw [← map_fst_toList, List.countP_map, toList_eq_front_back pairs pivot, List.countP_append,
    List.countP_cons_of_neg, List.countP_eq_length.mpr, List.countP_eq_zero.mpr, length_toList]
  · rfl
  · apply hafter
  · apply hbefore
  · apply Direction.not_precedes_self

/-- A key that precedes the pivot stands before it. -/
theorem Parted.pos_of_precedes [Std.ReflOrd K] (h : Parted direction pairs pivot)
    (hkey : key ∈ pairs.keys.toList) (hprecedes : direction.precedes key (pairs.get pivot).1) :
  0 < pivot.val
  := by
  rw [← h.countP_eq, List.countP_pos_iff]
  exact ⟨key, hkey, hprecedes⟩

/-- A key that the pivot precedes stands behind it. -/
theorem Parted.lt_of_precedes [Std.TransOrd K] (h : Parted direction pairs pivot)
    (hkey : key ∈ pairs.keys.toList) (hprecedes : direction.precedes (pairs.get pivot).1 key) :
  pivot.val + 1 < n
  := by
  obtain ⟨hbefore, -⟩ := parted_iff.mp h
  rw [← map_fst_toList, toList_eq_front_back pairs pivot] at hkey
  obtain ⟨pair, hpair, rfl⟩ := List.mem_map.mp hkey
  obtain hfront | hpair := List.mem_append.mp hpair
  · have hadmits := Direction.admits_of_precedes hprecedes
    simp [Direction.admits, hbefore pair hfront] at hadmits
  · obtain rfl | hback := List.mem_cons.mp hpair
    · apply absurd hprecedes
      apply Direction.not_precedes_self
    · have hlength := List.length_pos_of_mem hback
      rw [length_toList] at hlength
      omega

/-- A split puts the median of the first, the last and the middle key, whatever the direction, at
the position that is the number of keys that precede it.  Those before it precede it, and those
behind it do not.  All pairs are kept.  If no two of the three keys tie, there are pairs on both
sides of the pivot. -/
theorem partition_around_median [Std.TransOrd K] (direction : Direction) (pairs : Pairs K V n)
    (h : 0 < n) :
  let parted := (pairs.partition direction h).1
  let i := (pairs.partition direction h).2
  let pivot := parted.keys.get i
  have hlast : n - 1 < n := Nat.sub_one_lt_of_lt h
  have hmiddle : (n - 1) / 2 < n := Nat.lt_of_le_of_lt (Nat.div_le_self (n - 1) 2) hlast
  let candidates := [pairs.keys[0], pairs.keys[n - 1], pairs.keys[(n - 1) / 2]]
  IsMedian pivot candidates ∧ (∀ key, IsMedian key candidates → compare key pivot = .eq)
  ∧ i = pairs.keys.toList.countP (fun key => direction.precedes key pivot)
  ∧ (∀ (k : Nat) (hk : k < n), k < i → direction.precedes parted.keys[k] pivot)
  ∧ (∀ (k : Nat) (hk : k < n), i < k → ¬ direction.precedes parted.keys[k] pivot)
  ∧ parted.toList.Perm pairs.toList
  ∧ (candidates.Pairwise (fun a b => compare a b ≠ .eq) → 1 ≤ i.val ∧ i.val ≤ n - 2)
  := by
  intro parted i pivot hlast hmiddle candidates
  obtain ⟨hparted, hpivot, hperm⟩ := partition_spec direction pairs h
  have hmedian : IsMedian pivot candidates := by
    rw [show pivot = pairs.keys.get (pairs.pivotPosition h) from hpivot]
    apply isMedian_medianOfThree
  have hkeys : parted.keys.toList.Perm pairs.keys.toList := by
    rw [← map_fst_toList, ← map_fst_toList]
    apply hperm.map
  refine ⟨hmedian, fun key hkey => hkey.compare_eq hmedian, ?_, hparted.before, hparted.after,
    hperm, ?_⟩
  · rw [← hkeys.countP_eq]
    symm
    apply hparted.countP_eq
  · intro hdistinct
    have hmem {key : K} (hkey : key ∈ candidates) : key ∈ parted.keys.toList := by
      apply hkeys.mem_iff.mpr
      obtain rfl | rfl | rfl : key = pairs.keys[0] ∨ key = pairs.keys[n - 1]
          ∨ key = pairs.keys[(n - 1) / 2] := by simpa [candidates] using hkey
      all_goals simp
    obtain ⟨first, hfirst, last, hlast, hprecedes, hfollows⟩ :=
      hmedian.exists_precedes hdistinct direction
    have hpos := hparted.pos_of_precedes (hmem hfirst) hprecedes
    have hlt := hparted.lt_of_precedes (hmem hlast) hfollows
    omega

/-- Of 5, 2 and 7 the median is 5, which in descending order is preceded by 9, 7 and 8. -/
theorem parted_around_five :
  let pairs : Pairs UInt32 String 7 :=
    ⟨#v[5, 9, 1, 7, 3, 8, 2], #v["a", "b", "c", "d", "e", "f", "g"]⟩
  let (parted, i) := pairs.partition .descending (by decide)
  parted.keys.get i = 5 ∧ i.val = 3 ∧ (∀ (k : Nat) (hk : k < 7), k < i → 5 < parted.keys[k])
    ∧ 1 ≤ i.val ∧ i.val ≤ 5
  := by
  intro pairs
  obtain ⟨-, hmedian, hcount, hbefore, -, -, hsides⟩ :=
    partition_around_median .descending pairs (by decide)
  have hfive : IsMedian (5 : UInt32) [5, 2, 7] := ⟨2, 7, by decide, by decide⟩
  have hpivot := Std.compare_eq_iff_eq.mp (hmedian 5 hfive)
  rw [← hpivot] at hcount hbefore
  refine ⟨hpivot.symm, hcount.trans (by decide), ?_, hsides (by decide)⟩
  intro k hk hki
  have hprecedes := hbefore k hk hki
  rw [Direction.precedes, Ordering.isGT_iff_eq_gt, Std.OrientedCmp.gt_iff_lt] at hprecedes
  apply Std.compare_eq_lt.mp hprecedes

end Pairs

end LockstepSort
