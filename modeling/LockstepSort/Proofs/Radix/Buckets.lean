import LockstepSort.Proofs.Attempt
import LockstepSort.Proofs.Segments
import LockstepSort.Proofs.StableSort
import LockstepSort.Radix.Buckets

/-!
# Counts and starts of buckets

The counts are the numbers of pairs in the buckets, and their running sums, taken in the
order of the buckets, are the positions where the buckets start.  Neither leaves the numbers
that can be counted unless the number of the pairs does.
-/

namespace LockstepSort

section

variable {K V : Type} [DigitKey K] {place : Nat}

/-- The bucket of a pair, by the digit of its key at a place. -/
def bucketAt (place : Nat) (pair : K × V) : Fin bucketCount :=
  ⟨digitAt pair.1 place, digitAt_lt pair.1 place⟩

theorem ofDigit_eq_bucketAt {pair : K × V} {digit : UInt8}
    (h : DigitKey.digit pair.1 place = .ok digit) :
  Buckets.ofDigit digit = bucketAt place pair
  := by
  apply Fin.ext
  symm
  apply digitAt_of_digit h

theorem Direction.nodup_bucketOrder (direction : Direction) :
  direction.bucketOrder.Nodup
  := by
  cases direction with
  | ascending => apply List.nodup_finRange
  | descending => apply List.nodup_reverse.mpr (List.nodup_finRange bucketCount)

theorem Direction.mem_bucketOrder (direction : Direction) (bucket : Fin bucketCount) :
  bucket ∈ direction.bucketOrder
  := by
  cases direction with
  | ascending => apply List.mem_finRange
  | descending => apply List.mem_reverse.mpr (List.mem_finRange bucket)

/-- Buckets follow one another in the direction of the sort. -/
theorem Direction.pairwise_bucketOrder (direction : Direction) :
  direction.bucketOrder.Pairwise fun b c => direction.precedes b.val c.val
  := by
  simp only [precedes_nat]
  cases direction with
  | ascending =>
      apply (List.pairwise_lt_finRange bucketCount).imp
      intro b c hbc
      apply decide_eq_true hbc
  | descending =>
      apply List.pairwise_reverse.mpr
      apply (List.pairwise_lt_finRange bucketCount).imp
      intro b c hbc
      apply decide_eq_true hbc

/-- In front of a bucket are those with digits that come before its own. -/
theorem Direction.mem_front_iff {direction : Direction} {front back : List (Fin bucketCount)}
    {bucket other : Fin bucketCount} (horder : direction.bucketOrder = front ++ bucket :: back) :
  other ∈ front ↔ direction.precedes other.val bucket.val
  := by
  have hpairwise := direction.pairwise_bucketOrder
  rw [horder] at hpairwise
  obtain ⟨-, hback, hfront⟩ := List.pairwise_append.mp hpairwise
  constructor
  · intro hother
    apply hfront other hother bucket List.mem_cons_self
  · intro hprecedes
    have hmem := direction.mem_bucketOrder other
    rw [horder, List.mem_append, List.mem_cons] at hmem
    obtain hother | rfl | hother := hmem
    · apply hother
    · apply absurd hprecedes (direction.not_precedes_self _)
    · have hbehind := admits_of_precedes (List.rel_of_pairwise_cons hback hother)
      simp [admits, hprecedes] at hbehind

end

namespace Buckets

theorem countSum_eq_ok {a b sum : Nat} :
  countSum a b = .ok sum ↔ a + b < sizeLimit ∧ a + b = sum
  := by
  unfold countSum
  split <;> simp [*]

theorem get_empty (b : Fin bucketCount) :
  empty.get b = 0
  := Vector.getElem_replicate b.isLt

theorem get_put (buckets : Buckets) (bucket : Fin bucketCount) (number : Nat)
    (b : Fin bucketCount) :
  (buckets.put bucket number).get b = if b = bucket then number else buckets.get b
  := by
  apply (Vector.getElem_set bucket.isLt b.isLt).trans
  by_cases hb : b = bucket
  · subst hb
    rw [if_pos rfl, if_pos rfl]
  · rw [if_neg (fun h => hb (Fin.ext h.symm)), if_neg hb]
    rfl

theorem advance_eq_ok {buckets buckets' : Buckets} {bucket : Fin bucketCount} :
  buckets.advance bucket = .ok buckets'
    ↔ buckets.get bucket + 1 < sizeLimit
      ∧ buckets.put bucket (buckets.get bucket + 1) = buckets'
  := by
  constructor
  · intro h
    obtain ⟨number, hsum, hput⟩ := bind_eq_ok.mp h
    obtain ⟨hlimit, rfl⟩ := countSum_eq_ok.mp hsum
    use hlimit, Except.ok.inj hput
  · rintro ⟨hlimit, rfl⟩
    apply bind_eq_ok.mpr
    use buckets.get bucket + 1, countSum_eq_ok.mpr ⟨hlimit, rfl⟩
    rfl

theorem get_advance {buckets buckets' : Buckets} {bucket : Fin bucketCount}
    (h : buckets.advance bucket = .ok buckets') (b : Fin bucketCount) :
  buckets'.get b = buckets.get b + if b = bucket then 1 else 0
  := by
  obtain ⟨-, rfl⟩ := advance_eq_ok.mp h
  rw [get_put]
  by_cases hb : b = bucket
  · subst hb
    rw [if_pos rfl, if_pos rfl]
  · rw [if_neg hb, if_neg hb]
    rfl

section

variable {K V : Type} [DigitKey K] {place : Nat}

/-- The counts are the numbers of pairs in the buckets. -/
theorem get_counts {pairs : List (K × V)} {counts : Buckets}
    (h : Buckets.counts place (pairs.map Prod.fst) = .ok counts) (b : Fin bucketCount) :
  counts.get b = (inBucket (bucketAt place) pairs b).length
  := by
  rw [Buckets.counts, List.foldlM_map] at h
  revert b
  apply foldlM_keeps (P := fun done buckets =>
    ∀ b : Fin bucketCount, buckets.get b = (inBucket (bucketAt place) done b).length) h
  · intro b
    simp [get_empty, inBucket]
  · intro done pair rest buckets buckets' _ hdone hstep b
    obtain ⟨digit, hdigit, hadvance⟩ := bind_eq_ok.mp hstep
    rw [get_advance hadvance, hdone, ofDigit_eq_bucketAt hdigit, inBucket_append,
      List.length_append]
    by_cases hb : b = bucketAt place pair
    · subst hb
      simp
    · rw [if_neg hb, inBucket_singleton_of_ne hb]
      rfl

/-- Only keys whose digits can be read are counted. -/
theorem exists_digit_of_counts {keys : List K} {counts : Buckets}
    (h : Buckets.counts place keys = .ok counts) :
  ∀ key ∈ keys, ∃ digit, DigitKey.digit key place = .ok digit
  := by
  apply foldlM_keeps (P := fun done _ =>
    ∀ key ∈ done, ∃ digit, DigitKey.digit key place = .ok digit) h
  · intro key hkey
    cases hkey
  · intro done key rest _ _ _ hdone hstep key' hkey'
    obtain hkey' | hkey' := List.mem_append.mp hkey'
    · apply hdone key' hkey'
    · obtain rfl := List.mem_singleton.mp hkey'
      obtain ⟨digit, hdigit, -⟩ := bind_eq_ok.mp hstep
      use digit, hdigit

/-- Keys whose digits can be read, and whose number can be counted, are counted. -/
theorem exists_counts
    {pairs : List (K × V)} (hlimit : pairs.length < sizeLimit)
    (hread : ∀ pair ∈ pairs, ∃ digit, DigitKey.digit pair.1 place = .ok digit) :
  ∃ counts, Buckets.counts place (pairs.map Prod.fst) = .ok counts
  := by
  rw [Buckets.counts, List.foldlM_map]
  apply exists_foldlM (P := fun done buckets =>
    ∀ b : Fin bucketCount, buckets.get b ≤ done.length)
  · intro b
    simp [get_empty]
  · intro done pair rest buckets buckets' _ hdone hstep b
    obtain ⟨digit, -, hadvance⟩ := bind_eq_ok.mp hstep
    have hb := hdone b
    rw [get_advance hadvance, List.length_append, List.length_singleton]
    split <;> omega
  · rintro done pair rest buckets rfl hdone
    obtain ⟨digit, hdigit⟩ := hread pair (by simp)
    have hb := hdone (ofDigit digit)
    rw [List.length_append, List.length_cons] at hlimit
    use buckets.put (ofDigit digit) (buckets.get (ofDigit digit) + 1)
    apply bind_eq_ok.mpr
    use digit, hdigit
    apply advance_eq_ok.mpr
    constructor
    · omega
    · rfl

end

theorem chain_eq_ok {state state' : Nat × Buckets} {bucket : Fin bucketCount} :
  chain state bucket = .ok state'
    ↔ state.1 + state.2.get bucket < sizeLimit
      ∧ (state.1 + state.2.get bucket, state.2.put bucket state.1) = state'
  := by
  constructor
  · intro h
    obtain ⟨sum, hsum, hput⟩ := bind_eq_ok.mp h
    obtain ⟨hlimit, rfl⟩ := countSum_eq_ok.mp hsum
    use hlimit, Except.ok.inj hput
  · rintro ⟨hlimit, rfl⟩
    apply bind_eq_ok.mpr
    use state.1 + state.2.get bucket, countSum_eq_ok.mpr ⟨hlimit, rfl⟩
    rfl

/-- The running sums over the buckets of `done`, of those in `order`: these buckets hold
the positions where they start, and the others still their counts. -/
structure Chained (order : List (Fin bucketCount)) (counts : Buckets)
    (done : List (Fin bucketCount)) (state : Nat × Buckets) : Prop where
  sum : state.1 = (done.map counts.get).sum
  start : ∀ b ∈ done, state.2.get b = placesBefore order counts.get b
  count : ∀ b ∉ done, state.2.get b = counts.get b

theorem Chained.keep
    {order done rest : List (Fin bucketCount)} {counts : Buckets} {bucket : Fin bucketCount}
    {state state' : Nat × Buckets} (hnodup : order.Nodup) (horder : order = done ++ bucket :: rest)
    (h : Chained order counts done state) (hstep : chain state bucket = .ok state') :
  Chained order counts (done ++ [bucket]) state'
  := by
  obtain ⟨-, rfl⟩ := chain_eq_ok.mp hstep
  have hnot := (not_mem_of_nodup (horder ▸ hnodup)).1
  constructor
  · rw [List.map_append, List.sum_append, h.sum, h.count bucket hnot]
    simp
  · intro b hb
    rw [get_put]
    by_cases hbucket : b = bucket
    · subst hbucket
      rw [if_pos rfl, h.sum, horder, placesBefore_append_cons hnot]
    · rw [if_neg hbucket]
      apply h.start b
      simpa [hbucket] using hb
  · intro b hb
    rw [List.mem_append, List.mem_singleton, not_or] at hb
    rw [get_put, if_neg hb.2]
    apply h.count b hb.1

theorem Chained.zero (order : List (Fin bucketCount)) (counts : Buckets) :
  Chained order counts [] (0, counts)
  where
  sum := rfl
  start b hb := by cases hb
  count b _ := rfl

/-- The running sums over the first buckets in the direction of a sort. -/
theorem chained_of_foldlM {direction : Direction} {counts : Buckets}
    {done rest : List (Fin bucketCount)} {state : Nat × Buckets}
    (horder : direction.bucketOrder = done ++ rest)
    (h : done.foldlM chain (0, counts) = .ok state) :
  Chained direction.bucketOrder counts done state
  := by
  apply foldlM_keeps h (Chained.zero _ counts)
  intro done' bucket rest' state state' hdone h hstep
  apply h.keep direction.nodup_bucketOrder _ hstep
  · exact rest' ++ rest
  · rw [horder, hdone, List.append_assoc, List.cons_append]

/-- Each bucket starts behind the counts of the buckets in front of it. -/
theorem get_starts {direction : Direction} {counts cursors : Buckets}
    (h : counts.starts direction = .ok cursors) (b : Fin bucketCount) :
  cursors.get b = placesBefore direction.bucketOrder counts.get b
  := by
  obtain ⟨state, hfold, hstate⟩ := bind_eq_ok.mp h
  obtain rfl := Except.ok.inj hstate
  have hchained := chained_of_foldlM (List.append_nil _).symm hfold
  apply hchained.start b (direction.mem_bucketOrder b)

/-- Counts whose sum can be counted have running sums. -/
theorem exists_starts {direction : Direction} {counts : Buckets}
    (hlimit : (direction.bucketOrder.map counts.get).sum < sizeLimit) :
  ∃ cursors, counts.starts direction = .ok cursors
  := by
  obtain ⟨state, hfold⟩ :
      ∃ state, direction.bucketOrder.foldlM chain (0, counts) = .ok state := by
    apply exists_foldlM (P := Chained direction.bucketOrder counts) (Chained.zero _ counts)
    · intro done bucket rest state state' horder h hstep
      apply h.keep direction.nodup_bucketOrder horder hstep
    · intro done bucket rest state horder h
      have hnot := (not_mem_of_nodup (horder ▸ direction.nodup_bucketOrder)).1
      rw [horder, List.map_append, List.sum_append, List.map_cons, List.sum_cons] at hlimit
      refine ⟨_, chain_eq_ok.mpr ⟨?_, rfl⟩⟩
      rw [h.sum, h.count bucket hnot]
      omega
  use state.2
  apply bind_eq_ok.mpr
  use state, hfold
  rfl

end Buckets

end LockstepSort
