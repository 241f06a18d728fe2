import Mathlib.Data.List.Basic
import Mathlib.Data.List.Nodup
import Mathlib.Algebra.BigOperators.Group.List.Basic
import Mathlib.Algebra.GroupWithZero.Nat

/-!
# Segments

A list cut into segments, one for each bucket, in the order of the buckets.  While elements
are put into their buckets, each segment starts with the elements put there so far, and what
lies behind them in it is free: the next element of the bucket takes the first free place.
-/

namespace LockstepSort

section

variable {α β : Type} [DecidableEq β] {order : List β}

/-- The number of places in the segments before that of a bucket. -/
def placesBefore (order : List β) (size : β → Nat) (bucket : β) : Nat :=
  ((order.takeWhile fun b => decide (b ≠ bucket)).map size).sum

/-- The elements of a list that belong in a bucket. -/
def inBucket (bucketOf : α → β) (list : List α) (bucket : β) : List α :=
  list.filter fun a => decide (bucketOf a = bucket)

variable {bucketOf : α → β} {size : β → Nat}

theorem inBucket_append (list list' : List α) (bucket : β) :
  inBucket bucketOf (list ++ list') bucket
    = inBucket bucketOf list bucket ++ inBucket bucketOf list' bucket
  := List.filter_append list list'

theorem eq_of_mem_inBucket {list : List α} {bucket : β} {a : α}
    (h : a ∈ inBucket bucketOf list bucket) :
  bucketOf a = bucket
  := of_decide_eq_true (List.mem_filter.mp h).2

@[simp]
theorem inBucket_singleton_self (a : α) :
  inBucket bucketOf [a] (bucketOf a) = [a]
  := by
  simp [inBucket]

theorem inBucket_singleton_of_ne {a : α} {bucket : β} (h : bucket ≠ bucketOf a) :
  inBucket bucketOf [a] bucket = []
  := by
  simp [inBucket, h.symm]

/-- Before the segment of a bucket lie those of the buckets in front of it. -/
theorem placesBefore_append_cons
    {before after : List β} {bucket : β} (h : bucket ∉ before) :
  placesBefore (before ++ bucket :: after) size bucket = (before.map size).sum
  := by
  rw [placesBefore, List.takeWhile_append_of_pos, List.takeWhile_cons_of_neg (by simp),
    List.append_nil]
  intro b hb
  have hne : b ≠ bucket := by
    rintro rfl
    apply h hb
  simpa using hne

omit [DecidableEq β] in
theorem not_mem_of_nodup
    {before after : List β} {bucket : β} (h : (before ++ bucket :: after).Nodup) :
  bucket ∉ before ∧ bucket ∉ after
  := by
  have hnot := (List.nodup_cons.mp (List.nodup_middle.mp h)).1
  rwa [List.mem_append, not_or] at hnot

omit [DecidableEq β] in
/-- Where all segments but one are empty, the list is that segment. -/
theorem flatMap_eq_of_eq_nil
    {segment : β → List α} {bucket : β} (hnodup : order.Nodup) (hmem : bucket ∈ order)
    (hnil : ∀ b ∈ order, b ≠ bucket → segment b = []) :
  order.flatMap segment = segment bucket
  := by
  obtain ⟨before, after, rfl⟩ := List.append_of_mem hmem
  obtain ⟨hbefore, hafter⟩ := not_mem_of_nodup hnodup
  have hbefore : before.flatMap segment = [] := by
    apply List.flatMap_eq_nil_iff.mpr
    intro b hb
    apply hnil b (List.mem_append_left _ hb)
    rintro rfl
    apply hbefore hb
  have hafter : after.flatMap segment = [] := by
    apply List.flatMap_eq_nil_iff.mpr
    intro b hb
    apply hnil b (List.mem_append_right _ (List.mem_cons_of_mem _ hb))
    rintro rfl
    apply hafter hb
  rw [List.flatMap_append, List.flatMap_cons, hbefore, hafter, List.nil_append,
    List.append_nil]

/-- A list can be cut into segments of any sizes that add up to its length. -/
theorem exists_segments
    (hnodup : order.Nodup) (list : List α) (hsize : (order.map size).sum = list.length) :
  ∃ segment : β → List α, list = order.flatMap segment ∧
    ∀ bucket ∈ order, (segment bucket).length = size bucket
  := by
  induction order generalizing list with
  | nil =>
      use fun _ => []
      constructor
      · apply List.eq_nil_of_length_eq_zero
        rw [← hsize]
        rfl
      · intro bucket hbucket
        cases hbucket
  | cons first order ih =>
      obtain ⟨hfirst, hnodup⟩ := List.nodup_cons.mp hnodup
      rw [List.map_cons, List.sum_cons] at hsize
      obtain ⟨segment, hlist, hlength⟩ := ih hnodup (list.drop (size first))
        (by rw [List.length_drop]; omega)
      use Function.update segment first (list.take (size first))
      constructor
      · rw [List.flatMap_cons, Function.update_self]
        have hrest : order.flatMap (Function.update segment first (list.take (size first)))
            = order.flatMap segment := by
          apply List.flatMap_congr
          intro bucket hbucket
          apply Function.update_of_ne
          rintro rfl
          apply hfirst hbucket
        rw [hrest, ← hlist, List.take_append_drop]
      · intro bucket hbucket
        by_cases hb : bucket = first
        · subst hb
          rw [Function.update_self, List.length_take]
          omega
        · rw [Function.update_of_ne hb]
          apply hlength
          apply (List.mem_cons.mp hbucket).resolve_left hb

/-- The elements of `done`, out of those of `list`, lie in their buckets: each segment of
`places` has room for all elements of its bucket and starts with those of `done`. -/
def Filled (order : List β) (bucketOf : α → β) (list done places : List α) : Prop :=
  ∃ free : β → List α,
    places = order.flatMap (fun bucket => inBucket bucketOf done bucket ++ free bucket) ∧
    ∀ bucket ∈ order, (inBucket bucketOf done bucket ++ free bucket).length
      = (inBucket bucketOf list bucket).length

namespace Filled

variable {list done rest places : List α} {a : α}

/-- Places of the right number are filled with no element. -/
theorem nil
    (hnodup : order.Nodup)
    (hsize : (order.map fun bucket => (inBucket bucketOf list bucket).length).sum
      = places.length) :
  Filled order bucketOf list [] places
  := by
  obtain ⟨free, hplaces, hlength⟩ := exists_segments hnodup places hsize
  use free
  simp only [inBucket, List.filter_nil, List.nil_append]
  use hplaces, hlength

/-- When all elements are in, the buckets follow one another. -/
theorem eq_flatMap (h : Filled order bucketOf list list places) :
  places = order.flatMap (inBucket bucketOf list)
  := by
  obtain ⟨free, hplaces, hlength⟩ := h
  rw [hplaces]
  apply List.flatMap_congr
  intro bucket hbucket
  have hfree := hlength bucket hbucket
  rw [List.length_append, Nat.add_eq_left, List.length_eq_zero_iff] at hfree
  rw [hfree, List.append_nil]

/-- There is a free place in the segment of the next element. -/
private theorem exists_free
    {free : List α} (hlist : list = done ++ a :: rest)
    (hlength : (inBucket bucketOf done (bucketOf a) ++ free).length
      = (inBucket bucketOf list (bucketOf a)).length) :
  ∃ slot free', free = slot :: free'
  := by
  apply List.exists_cons_of_length_pos
  rw [hlist, ← List.singleton_append, inBucket_append, inBucket_append,
    inBucket_singleton_self] at hlength
  simp only [List.length_append, List.length_singleton] at hlength
  omega

/-- The next element belongs at the first free place of its segment. -/
theorem next
    (hnodup : order.Nodup) (hmem : bucketOf a ∈ order) (hlist : list = done ++ a :: rest)
    (h : Filled order bucketOf list done places) :
  ∃ front slot back, places = front ++ slot :: back ∧
    front.length = placesBefore order (fun bucket => (inBucket bucketOf list bucket).length)
      (bucketOf a) + (inBucket bucketOf done (bucketOf a)).length ∧
    Filled order bucketOf list (done ++ [a]) (front ++ a :: back)
  := by
  obtain ⟨free, rfl, hlength⟩ := h
  obtain ⟨slot, free', hfree⟩ := exists_free hlist (hlength (bucketOf a) hmem)
  obtain ⟨before, after, rfl⟩ := List.append_of_mem hmem
  obtain ⟨hbefore, hafter⟩ := not_mem_of_nodup hnodup
  -- Only the segment of `a` changes, so those before and after it stay as they are.
  have hothers (buckets : List β) (hnot : bucketOf a ∉ buckets) :
      buckets.flatMap (fun bucket => inBucket bucketOf (done ++ [a]) bucket
          ++ Function.update free (bucketOf a) free' bucket)
        = buckets.flatMap (fun bucket => inBucket bucketOf done bucket ++ free bucket) := by
    apply List.flatMap_congr
    intro bucket hbucket
    have hne : bucket ≠ bucketOf a := by
      rintro rfl
      apply hnot hbucket
    rw [inBucket_append, inBucket_singleton_of_ne hne, List.append_nil,
      Function.update_of_ne hne]
  use before.flatMap (fun bucket => inBucket bucketOf done bucket ++ free bucket)
    ++ inBucket bucketOf done (bucketOf a), slot,
    free' ++ after.flatMap (fun bucket => inBucket bucketOf done bucket ++ free bucket)
  refine ⟨?_, ?_, Function.update free (bucketOf a) free', ?_, ?_⟩
  · rw [List.flatMap_append, List.flatMap_cons, hfree]
    simp only [List.append_assoc, List.cons_append]
  · rw [placesBefore_append_cons hbefore, List.length_append, List.length_flatMap]
    congr 2
    apply List.map_congr_left
    intro bucket hbucket
    apply hlength bucket (List.mem_append_left _ hbucket)
  · rw [List.flatMap_append, List.flatMap_cons, hothers before hbefore, hothers after hafter,
      Function.update_self, inBucket_append, inBucket_singleton_self]
    simp only [List.append_assoc, List.cons_append, List.nil_append]
  · intro bucket hbucket
    rw [← hlength bucket hbucket]
    by_cases hb : bucket = bucketOf a
    · subst hb
      rw [Function.update_self, inBucket_append, inBucket_singleton_self, hfree]
      simp only [List.length_append, List.length_cons, List.length_nil]
      omega
    · rw [Function.update_of_ne hb, inBucket_append, inBucket_singleton_of_ne hb,
        List.append_nil]

end Filled

/-! ### Places of the elements -/

theorem placesBefore_cons (first bucket : β) (order : List β) (size : β → Nat) :
  placesBefore (first :: order) size bucket
    = if first = bucket then 0 else size first + placesBefore order size bucket
  := by
  unfold placesBefore
  rw [List.takeWhile_cons]
  split <;> simp_all

/-- Of two segments, one ends before the other starts. -/
theorem placesBefore_add_le (size : β → Nat) {b c : β} (hb : b ∈ order) (hc : c ∈ order)
    (hne : b ≠ c) :
  placesBefore order size b + size b ≤ placesBefore order size c
    ∨ placesBefore order size c + size c ≤ placesBefore order size b
  := by
  induction order with
  | nil => cases hb
  | cons first order ih =>
      simp only [placesBefore_cons]
      by_cases hfirst : first = b
      · subst hfirst
        left
        rw [if_pos rfl, if_neg hne]
        omega
      · rw [if_neg hfirst]
        by_cases hfirst' : first = c
        · subst hfirst'
          right
          rw [if_pos rfl]
          omega
        · rw [if_neg hfirst']
          have hapart := ih ((List.mem_cons.mp hb).resolve_left (Ne.symm hfirst))
            ((List.mem_cons.mp hc).resolve_left (Ne.symm hfirst'))
          omega

/-- A segment ends at the latest where all of them do. -/
theorem placesBefore_add_le_sum (size : β → Nat) {b : β} (hb : b ∈ order) :
  placesBefore order size b + size b ≤ (order.map size).sum
  := by
  induction order with
  | nil => cases hb
  | cons first order ih =>
      rw [placesBefore_cons, List.map_cons, List.sum_cons]
      by_cases hfirst : first = b
      · subst hfirst
        rw [if_pos rfl]
        omega
      · rw [if_neg hfirst]
        have hend := ih ((List.mem_cons.mp hb).resolve_left (Ne.symm hfirst))
        omega

omit [DecidableEq β] in
/-- Some of the segments take no more places than all of them. -/
theorem sum_map_le_of_append (size : β → Nat) {done rest : List β} (h : order = done ++ rest) :
  (done.map size).sum ≤ (order.map size).sum
  := by
  rw [h, List.map_append, List.sum_append]
  apply Nat.le_add_right

/-- A segment ends where the next one starts. -/
theorem placesBefore_add_eq_next (size : β → Nat) {front back : List β} {bucket next : β}
    (hnodup : order.Nodup) (h : order = front ++ bucket :: next :: back) :
  placesBefore order size bucket + size bucket = placesBefore order size next
  := by
  have hbehind : order = (front ++ [bucket]) ++ next :: back := by simpa using h
  have hnext : placesBefore order size next = ((front ++ [bucket]).map size).sum := by
    rw [hbehind, placesBefore_append_cons]
    apply (not_mem_of_nodup (hbehind ▸ hnodup)).1
  rw [hnext, h, placesBefore_append_cons (not_mem_of_nodup (h ▸ hnodup)).1]
  simp

/-- The last segment ends where all of them do. -/
theorem placesBefore_add_eq_sum (size : β → Nat) {front : List β} {bucket : β}
    (hnodup : order.Nodup) (h : order = front ++ [bucket]) :
  placesBefore order size bucket + size bucket = (order.map size).sum
  := by
  rw [h, placesBefore_append_cons (not_mem_of_nodup (h ▸ hnodup)).1]
  simp

/-- Different buckets hold as many elements together as belong in one of them. -/
theorem sum_length_inBucket_of_nodup {buckets : List β} (hnodup : buckets.Nodup)
    (list : List α) :
  (buckets.map fun bucket => (inBucket bucketOf list bucket).length).sum
    = list.countP fun a => decide (bucketOf a ∈ buckets)
  := by
  induction buckets with
  | nil => simp
  | cons first buckets ih =>
      obtain ⟨hfirst, hnodup⟩ := List.nodup_cons.mp hnodup
      rw [List.map_cons, List.sum_cons, ih hnodup,
        List.countP_eq_countP_filter_add list (fun a => decide (bucketOf a ∈ first :: buckets))
          fun a => decide (bucketOf a = first),
        ← inBucket]
      congr 1
      · symm
        apply List.countP_eq_length.mpr
        intro a ha
        simp [eq_of_mem_inBucket ha]
      · rw [List.countP_filter]
        apply List.countP_congr
        intro a _
        simp only [decide_eq_true_eq, List.mem_cons, Bool.and_eq_true, Bool.not_eq_true',
          decide_eq_false_iff_not]
        constructor
        · intro ha
          use Or.inr ha
          rintro rfl
          apply hfirst ha
        · rintro ⟨ha, hne⟩
          apply ha.resolve_left hne

/-- An element stands behind those of its bucket that come before it. -/
theorem length_inBucket_take_lt (bucketOf : α → β) {list : List α} {i j : Nat} (hij : i < j)
    (hj : j ≤ list.length) :
  (inBucket bucketOf (list.take i) (bucketOf list[i])).length
    < (inBucket bucketOf (list.take j) (bucketOf list[i])).length
  := by
  have hsublist : (list.take i ++ [list[i]]).Sublist (list.take j) := by
    rw [List.take_append_getElem]
    apply (List.take_prefix_take_left hij).sublist
  have hle := (hsublist.filter fun a => decide (bucketOf a = bucketOf list[i])).length_le
  rw [← inBucket, ← inBucket, inBucket_append, inBucket_singleton_self, List.length_append,
    List.length_singleton] at hle
  omega

/-- The place of an element when the elements of a list are put into their buckets in turn. -/
def placeOf (order : List β) (bucketOf : α → β) (list : List α) (i : Fin list.length) : Nat :=
  placesBefore order (fun bucket => (inBucket bucketOf list bucket).length) (bucketOf list[i])
    + (inBucket bucketOf (list.take i) (bucketOf list[i])).length

/-- An element is placed in the segment of its bucket. -/
theorem placeOf_lt (order : List β) (bucketOf : α → β) (list : List α) (i : Fin list.length) :
  placeOf order bucketOf list i
    < placesBefore order (fun bucket => (inBucket bucketOf list bucket).length) (bucketOf list[i])
      + (inBucket bucketOf list (bucketOf list[i])).length
  := by
  have hrank := length_inBucket_take_lt bucketOf i.isLt (Nat.le_refl _)
  rw [List.take_length] at hrank
  apply Nat.add_lt_add_left hrank

/-- Elements of one bucket keep their order. -/
theorem placeOf_lt_placeOf (order : List β) {list : List α} {i j : Fin list.length} (hij : i < j)
    (hbucket : bucketOf list[i] = bucketOf list[j]) :
  placeOf order bucketOf list i < placeOf order bucketOf list j
  := by
  have hrank := length_inBucket_take_lt bucketOf hij (Nat.le_of_lt j.isLt)
  rw [placeOf, placeOf, ← hbucket]
  apply Nat.add_lt_add_left hrank

/-- No two elements have the same place. -/
theorem placeOf_injective {list : List α} (hmem : ∀ a ∈ list, bucketOf a ∈ order) :
  Function.Injective (placeOf order bucketOf list)
  := by
  intro i j hplace
  by_cases hbucket : bucketOf list[i] = bucketOf list[j]
  · obtain hij | hij | hij := Nat.lt_trichotomy i j
    · apply absurd hplace (Nat.ne_of_lt (placeOf_lt_placeOf order hij hbucket))
    · apply Fin.ext hij
    · apply absurd hplace (Nat.ne_of_gt (placeOf_lt_placeOf order hij hbucket.symm))
  · have hi := placeOf_lt order bucketOf list i
    have hj := placeOf_lt order bucketOf list j
    have hapart := placesBefore_add_le (fun bucket => (inBucket bucketOf list bucket).length)
      (hmem list[i] (List.getElem_mem _)) (hmem list[j] (List.getElem_mem _)) hbucket
    unfold placeOf at hplace hi hj
    omega

end

end LockstepSort
