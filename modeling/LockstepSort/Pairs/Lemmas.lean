import LockstepSort.Pairs.Basic

/-!
# Pairs as a list

What each operation on pairs does to `Pairs.toList`.  Pairs are determined by their list;
a window cuts the list into what lies before it, in it and behind it, `slice` reads the
middle part and `replace` exchanges it.
-/

namespace LockstepSort

/-! ### Overwriting a column -/

section

variable {α : Type} {m n : Nat}

/-- The first `k` steps of `overwrite` replace the first `k` of the elements. -/
private theorem getElem_fold_set
    (xs : Vector α n) (offset : Nat) (ys : Vector α m) (fits : offset + m ≤ n)
    (k : Nat) (hk : k ≤ m) (i : Nat) (hi : i < n) :
  (k.fold (fun j h column => column.set (offset + j) (ys[j]) (by omega)) xs : Vector α n)[i]
    = if h : offset ≤ i ∧ i < offset + k then ys[i - offset] else xs[i]
  := by
  induction k with
  | zero => rw [Nat.fold_zero, dif_neg (by omega)]
  | succ k ih =>
    rw [Nat.fold_succ, Vector.getElem_set, ih (by omega)]
    split
    · subst i
      simp
    · split
      · rw [dif_pos (by omega)]
      · rw [dif_neg (by omega)]

theorem getElem_overwrite
    (xs : Vector α n) (offset : Nat) (ys : Vector α m) (fits : offset + m ≤ n)
    (i : Nat) (hi : i < n) :
  (overwrite xs offset ys fits)[i]
    = if h : offset ≤ i ∧ i < offset + m then ys[i - offset] else xs[i]
  := getElem_fold_set xs offset ys fits m (Nat.le_refl m) i hi

theorem toList_overwrite
    (xs : Vector α n) (offset : Nat) (ys : Vector α m) (fits : offset + m ≤ n) :
  (overwrite xs offset ys fits).toList
    = xs.toList.take offset ++ ys.toList ++ xs.toList.drop (offset + m)
  := by
  apply List.ext_getElem
  · simp only [List.length_append, List.length_take, List.length_drop, Vector.length_toList]
    omega
  · intro i hi _
    have hin : i < n := by simpa using hi
    have htake : (xs.toList.take offset).length = offset := by
      rw [List.length_take, Vector.length_toList]
      omega
    have hfront : (xs.toList.take offset ++ ys.toList).length = offset + m := by
      rw [List.length_append, htake, Vector.length_toList]
    rw [Vector.getElem_toList, getElem_overwrite]
    by_cases hstop : i < offset + m
    · rw [List.getElem_append_left (by omega)]
      by_cases hstart : i < offset
      · rw [dif_neg (by omega), List.getElem_append_left (by omega), List.getElem_take,
          Vector.getElem_toList]
      · rw [dif_pos (by omega), List.getElem_append_right (by omega), Vector.getElem_toList]
        simp only [htake]
    · rw [dif_neg (by omega), List.getElem_append_right (by omega), List.getElem_drop,
        Vector.getElem_toList]
      simp only [hfront]
      congr 1
      omega

end

/-! ### Lists with a window in them -/

section

variable {α : Type} {before range sorted behind : List α} {offset length : Nat}

theorem getElem?_inside {i : Nat} (hbefore : before.length = offset)
    (hlength : range.length = length) (hi : i < length) :
  (before ++ range ++ behind)[offset + i]? = range[i]?
  := by
  rw [List.append_assoc, List.getElem?_append_right (by omega), hbefore,
    Nat.add_sub_cancel_left, List.getElem?_append_left (by omega)]

theorem getElem?_outside {i : Nat} (hbefore : before.length = offset)
    (hlength : range.length = length) (hlength' : sorted.length = length)
    (hi : i < offset ∨ offset + length ≤ i) :
  (before ++ sorted ++ behind)[i]? = (before ++ range ++ behind)[i]?
  := by
  obtain hi | hi := hi
  · simp only [List.append_assoc]
    rw [List.getElem?_append_left (by omega), List.getElem?_append_left (by omega)]
  · rw [List.getElem?_append_right (by simp; omega), List.getElem?_append_right (by simp; omega)]
    simp [hlength, hlength']

end

namespace Pairs

variable {K V : Type} {n : Nat}

/-! ### The list of the pairs -/

@[simp]
theorem length_toList (pairs : Pairs K V n) :
  pairs.toList.length = n
  := by
  simp [toList]

@[simp]
theorem map_fst_toList (pairs : Pairs K V n) :
  pairs.toList.map Prod.fst = pairs.keys.toList
  := List.map_fst_zip (by simp)

@[simp]
theorem map_snd_toList (pairs : Pairs K V n) :
  pairs.toList.map Prod.snd = pairs.values.toList
  := List.map_snd_zip (by simp)

theorem mem_keys {pairs : Pairs K V n} {pair : K × V} (h : pair ∈ pairs.toList) :
  pair.1 ∈ pairs.keys.toList
  := by
  rw [← map_fst_toList]
  apply List.mem_map_of_mem h

theorem getElem_toList
    (pairs : Pairs K V n) {i : Nat} (hi : i < n) (h : i < pairs.toList.length) :
  pairs.toList[i] = (pairs.keys[i], pairs.values[i])
  := by
  simp [toList]

theorem toList_injective {pairs pairs' : Pairs K V n} (h : pairs.toList = pairs'.toList) :
  pairs = pairs'
  := by
  obtain ⟨keys, values⟩ := pairs
  obtain ⟨keys', values'⟩ := pairs'
  have hkeys := congrArg (List.map Prod.fst) h
  have hvalues := congrArg (List.map Prod.snd) h
  simp only [map_fst_toList, map_snd_toList, Vector.toList_inj] at hkeys hvalues
  rw [hkeys, hvalues]

theorem ofArrays?_eq_some
    {keys : Array K} {values : Array V} (h : values.size = keys.size) :
  ofArrays? keys values = some (ofArrays keys values h)
  := dif_pos h

theorem ofArrays?_eq_none {keys : Array K} {values : Array V} (h : values.size ≠ keys.size) :
  ofArrays? keys values = none
  := dif_neg h

/-! ### Operations -/

theorem toList_swap (pairs : Pairs K V n) (i j : Fin n) :
  (pairs.swap i j).toList
    = (pairs.toList.set i (pairs.keys.get j, pairs.values.get j)).set j
        (pairs.keys.get i, pairs.values.get i)
  := by
  apply List.ext_getElem
  · simp
  · intro k hk _
    have hkn : k < n := by simpa using hk
    rw [getElem_toList _ hkn]
    simp only [swap, Vector.getElem_swap, List.getElem_set, getElem_toList _ hkn]
    by_cases hj : j.val = k
    · rw [if_pos hj]
      by_cases hi : i.val = k
      · subst k
        rw [if_pos hi.symm, if_pos hi.symm]
        obtain rfl := Fin.ext hi
        rfl
      · rw [if_neg (Ne.symm hi), if_neg (Ne.symm hi), if_pos hj.symm, if_pos hj.symm]
        rfl
    · rw [if_neg hj]
      by_cases hi : i.val = k
      · rw [if_pos hi, if_pos hi.symm, if_pos hi.symm]
        rfl
      · rw [if_neg hi, if_neg (Ne.symm hi), if_neg (Ne.symm hi), if_neg (Ne.symm hj),
          if_neg (Ne.symm hj)]

theorem toList_set (pairs : Pairs K V n) (i : Fin n) (key : K) (value : V) :
  (pairs.set i key value).toList = pairs.toList.set i (key, value)
  := by
  apply List.ext_getElem
  · simp
  · intro k hk _
    have hkn : k < n := by simpa using hk
    rw [getElem_toList _ hkn]
    simp only [set, Vector.getElem_set, List.getElem_set, getElem_toList _ hkn]
    split <;> rfl

theorem toList_slice (pairs : Pairs K V n) (w : Window n) :
  (pairs.slice w).toList = (pairs.toList.drop w.offset).take w.length
  := by
  apply List.ext_getElem
  · have := w.fits
    simp only [List.length_take, List.length_drop, length_toList]
    omega
  · intro k hk _
    have hkn : k < w.length := by simpa using hk
    have := w.fits
    rw [getElem_toList _ hkn]
    simp [slice, getElem_toList _ (show w.offset + k < n by omega)]

theorem toList_replace (pairs : Pairs K V n) (w : Window n) (range : Pairs K V w.length) :
  (pairs.replace w range).toList
    = pairs.toList.take w.offset ++ range.toList ++ pairs.toList.drop (w.offset + w.length)
  := by
  have := w.fits
  simp only [toList, replace, toList_overwrite]
  rw [List.zip_append (by simp), List.zip_append (by simp)]
  simp only [List.zip, List.take_zipWith, List.drop_zipWith]

section

variable {pairs : Pairs K V n} {w : Window n} {range : Pairs K V w.length}
  {front back : List (K × V)}

/-- A window cuts the list of the pairs in three. -/
theorem exists_toList_eq_slice (pairs : Pairs K V n) (w : Window n) :
  ∃ front back, pairs.toList = front ++ (pairs.slice w).toList ++ back
    ∧ front.length = w.offset
  := by
  refine ⟨pairs.toList.take w.offset, pairs.toList.drop (w.offset + w.length), ?_, ?_⟩
  · rw [toList_slice, List.append_assoc, ← List.drop_drop, List.take_append_drop,
      List.take_append_drop]
  · have := w.fits
    rw [List.length_take, length_toList]
    omega

/-- What stands in a window is its slice. -/
theorem toList_slice_of_toList {inside : List (K × V)}
    (h : pairs.toList = front ++ inside ++ back) (hfront : front.length = w.offset)
    (hinside : inside.length = w.length) :
  (pairs.slice w).toList = inside
  := by
  rw [toList_slice, h, List.append_assoc, List.drop_left' hfront]
  apply List.take_left' hinside

theorem slice_eq_of_toList
    (h : pairs.toList = front ++ range.toList ++ back) (hfront : front.length = w.offset) :
  pairs.slice w = range
  := by
  apply toList_injective
  apply toList_slice_of_toList h hfront (length_toList range)

/-- What stands in a window after an exchange is what was put there. -/
theorem slice_replace (pairs : Pairs K V n) (w : Window n) (range : Pairs K V w.length) :
  (pairs.replace w range).slice w = range
  := by
  apply slice_eq_of_toList (toList_replace pairs w range)
  have := w.fits
  rw [List.length_take, length_toList]
  omega

/-- What stands in a window is exchanged, and the rest stays. -/
theorem toList_replace_of_toList
    (range' : Pairs K V w.length) (h : pairs.toList = front ++ range.toList ++ back)
    (hfront : front.length = w.offset) :
  (pairs.replace w range').toList = front ++ range'.toList ++ back
  := by
  have hback : (front ++ range.toList).length = w.offset + w.length := by simp [hfront]
  rw [toList_replace, h, List.drop_left' hback, List.append_assoc front, List.take_left' hfront]

/-- What stands in a window, put there again, leaves everything as it is. -/
theorem replace_slice (pairs : Pairs K V n) (w : Window n) :
  pairs.replace w (pairs.slice w) = pairs
  := by
  obtain ⟨front, back, hlist, hfront⟩ := pairs.exists_toList_eq_slice w
  apply toList_injective
  rw [toList_replace_of_toList _ hlist hfront, hlist]

/-- What is put in the window of all positions takes the place of all pairs. -/
theorem replace_whole (pairs range : Pairs K V n) :
  pairs.replace (.whole n) range = range
  := by
  apply toList_injective
  apply (toList_replace pairs (.whole n) range).trans
  simp [Window.whole]

end

end Pairs

end LockstepSort
