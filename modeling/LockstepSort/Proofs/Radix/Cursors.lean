import LockstepSort.Proofs.Radix.Placement

/-!
# The cursors of a distribution

One number is kept for each bucket.  First it counts the keys of the bucket, then it is the
position where the bucket starts, and from then on the cursor of the bucket, the position of its
next pair.  At each moment it is a number of keys: of those in the buckets in front, and of those
of the bucket itself that were laid down so far.  So none of these numbers exceeds that of the
keys, and each bucket is full when the distribution ends.
-/

namespace LockstepSort

/-! ### Keys by digit -/

section

variable {K V : Type} [DigitKey K] {n place : Nat} {direction : Direction}

/-- The number of keys with a digit at a place. -/
def digitCount (place : Nat) (keys : List K) (digit : Nat) : Nat :=
  keys.countP fun key => decide (digitAt key place = digit)

/-- The number of keys with a digit at a place that comes before `digit` in a direction. -/
def digitCountBefore (direction : Direction) (place : Nat) (keys : List K) (digit : Nat) : Nat :=
  keys.countP fun key => direction.precedes (digitAt key place) digit

/-- The size of a bucket is the number of keys with its digit. -/
theorem length_inBucket_eq_digitCount (place : Nat) (list : List (K × V))
    (bucket : Fin bucketCount) :
  (inBucket (bucketAt place) list bucket).length = digitCount place (list.map Prod.fst) bucket
  := by
  rw [inBucket, ← List.countP_eq_length_filter, digitCount, List.countP_map]
  apply List.countP_congr
  intro pair _
  simp [bucketAt, Fin.ext_iff]

/-- In front of a bucket lie the keys with digits that come before its own. -/
theorem placesBefore_eq_digitCountBefore (direction : Direction) (place : Nat)
    (list : List (K × V)) (bucket : Fin bucketCount) :
  placesBefore direction.bucketOrder
      (fun bucket => (inBucket (bucketAt place) list bucket).length) bucket
    = digitCountBefore direction place (list.map Prod.fst) bucket
  := by
  obtain ⟨front, back, horder⟩ := List.append_of_mem (direction.mem_bucketOrder bucket)
  have hnodup := horder ▸ direction.nodup_bucketOrder
  rw [horder, placesBefore_append_cons (not_mem_of_nodup hnodup).1,
    sum_length_inBucket_of_nodup (List.nodup_append.mp hnodup).1, digitCountBefore,
    List.countP_map]
  apply List.countP_congr
  intro pair _
  rw [decide_eq_true_iff, Direction.mem_front_iff horder]
  rfl

namespace Pairs

variable {pairs : Pairs K V n} {counts starts : Buckets}
  (hlimit : n < sizeLimit)
  (hread : ∀ pair ∈ pairs.toList, ∃ digit, DigitKey.digit pair.1 place = .ok digit)
  (hcounts : Buckets.counts place (pairs.toList.map Prod.fst) = .ok counts)
  (hstarts : counts.starts direction = .ok starts)

section

include hlimit hread

/-- The keys that were counted so far are the counts. -/
theorem exists_counts_take (k : Nat) :
  ∃ buckets, Buckets.counts place (pairs.keys.toList.take k) = .ok buckets
    ∧ ∀ bucket, buckets.get bucket = digitCount place (pairs.keys.toList.take k) bucket
      ∧ buckets.get bucket ≤ n
  := by
  have hlength : (pairs.toList.take k).length ≤ n := by
    rw [List.length_take, length_toList]
    apply Nat.min_le_right
  obtain ⟨buckets, hbuckets⟩ := Buckets.exists_counts (hlength.trans_lt hlimit)
    fun pair hpair => hread pair (List.mem_of_mem_take hpair)
  use buckets
  rw [← map_fst_toList, ← List.map_take]
  use hbuckets
  intro bucket
  rw [Buckets.get_counts hbuckets]
  use length_inBucket_eq_digitCount place _ bucket
  apply (List.length_filter_le _ _).trans hlength

end

section

include hcounts

/-- All buckets together hold all pairs. -/
theorem sum_counts (direction : Direction) :
  (direction.bucketOrder.map counts.get).sum = n
  := by
  rw [funext (Buckets.get_counts hcounts), sum_length_inBucket, length_toList]

include hstarts

/-- The running sums, while they are taken, are no greater than the number of the pairs. -/
theorem exists_foldlM_chain (m : Nat) :
  ∃ sum buckets, (direction.bucketOrder.take m).foldlM Buckets.chain (0, counts)
      = .ok (sum, buckets)
    ∧ sum ≤ n ∧ ∀ bucket, buckets.get bucket ≤ n
  := by
  obtain ⟨last, hlast, -⟩ := bind_eq_ok.mp hstarts
  have horder := (List.take_append_drop m direction.bucketOrder).symm
  rw [horder, List.foldlM_append] at hlast
  obtain ⟨⟨sum, buckets⟩, hstate, -⟩ := bind_eq_ok.mp hlast
  have hchained := Buckets.chained_of_foldlM horder hstate
  have hsum := sum_counts hcounts direction
  refine ⟨sum, buckets, hstate, ?_, ?_⟩
  · apply hchained.sum.trans_le
    apply (sum_map_le_of_append _ horder).trans_eq hsum
  · intro bucket
    have hend := placesBefore_add_le_sum counts.get (direction.mem_bucketOrder bucket)
    -- A bucket holds its start once the sum has passed it, and its count until then.
    by_cases hdone : bucket ∈ direction.bucketOrder.take m
    · apply (hchained.start bucket hdone).trans_le
      omega
    · apply (hchained.count bucket hdone).trans_le
      omega

/-- When the first pairs are deposited, each cursor stands behind the keys in front of its bucket
and those of the bucket that were deposited. -/
theorem get_cursors {target : Pairs K V n} {state : Distribution K V n} {k : Nat}
    (hstate : (pairs.toList.take k).foldlM (Distribution.deposit place) ⟨target, starts⟩
      = .ok state) (bucket : Fin bucketCount) :
  state.cursors.get bucket
      = digitCountBefore direction place pairs.keys.toList bucket
        + digitCount place (pairs.keys.toList.take k) bucket
    ∧ state.cursors.get bucket ≤ n
  := by
  have hdeposited := deposited_of_foldlM hcounts hstarts
    (List.take_append_drop k pairs.toList).symm hstate
  rw [hdeposited.cursor]
  constructor
  · rw [placesBefore_eq_digitCountBefore, length_inBucket_eq_digitCount, List.map_take,
      map_fst_toList]
  · have hsub := ((List.take_sublist k pairs.toList).filter
      fun pair => decide (bucketAt place pair = bucket)).length_le
    apply (Nat.add_le_add_left hsub _).trans
    apply (placesBefore_add_le_sum _ (direction.mem_bucketOrder bucket)).trans_eq
    rw [sum_length_inBucket, length_toList]

/-- When all pairs are deposited, the cursor of each bucket stands where the next one starts. -/
theorem get_cursors_of_all {target : Pairs K V n} {state : Distribution K V n}
    (hstate : pairs.toList.foldlM (Distribution.deposit place) ⟨target, starts⟩ = .ok state)
    {front back : List (Fin bucketCount)} {bucket : Fin bucketCount}
    (horder : direction.bucketOrder = front ++ bucket :: back) :
  state.cursors.get bucket = (back.head?.map starts.get).getD n
  := by
  have hdeposited := deposited_of_foldlM hcounts hstarts (List.append_nil _).symm hstate
  rw [hdeposited.cursor, ← funext (Buckets.get_counts hcounts), ← Buckets.get_counts hcounts]
  cases back with
  | nil =>
      rw [placesBefore_add_eq_sum counts.get direction.nodup_bucketOrder horder,
        sum_counts hcounts]
      rfl
  | cons next back =>
      rw [placesBefore_add_eq_next counts.get direction.nodup_bucketOrder horder,
        ← Buckets.get_starts hstarts]
      rfl

end

end Pairs

/-- The numbers that a distribution keeps for the buckets, from the first key that is counted to the
last pair that is laid down, are numbers of keys, and so can be counted if the keys can.  Before a
pair is laid down, the cursor of a bucket is the number of the keys with digits that come before
its own, and of those with its own digit that are laid down already.  So the pairs go to different
places inside the columns, and the cursor of each bucket ends where the next bucket starts. -/
theorem cursors_count_keys (hlimit : n < sizeLimit) (direction : Direction)
    (pairs : Pairs K V n)
    (hread : ∀ key ∈ pairs.keys.toList, ∃ digit, DigitKey.digit key place = .ok digit) :
  let keys := pairs.keys.toList
  ∃ (counts starts : Buckets) (s : Equiv.Perm (Fin n)),
    Buckets.counts place keys = .ok counts
    ∧ counts.starts direction = .ok starts
    ∧ (∀ k, ∃ buckets, Buckets.counts place (keys.take k) = .ok buckets
      ∧ ∀ b, buckets.get b = digitCount place (keys.take k) b ∧ buckets.get b ≤ n)
    ∧ (∀ m, ∃ sum buckets,
      (direction.bucketOrder.take m).foldlM Buckets.chain (0, counts) = .ok (sum, buckets)
      ∧ sum ≤ n ∧ ∀ b, buckets.get b ≤ n)
    ∧ ∀ target : Pairs K V n,
      (∀ k, ∃ state,
        (pairs.toList.take k).foldlM (Distribution.deposit place) ⟨target, starts⟩ = .ok state
        ∧ ∀ b, state.cursors.get b
            = digitCountBefore direction place keys b + digitCount place (keys.take k) b
          ∧ state.cursors.get b ≤ n)
      ∧ (∀ k : Fin n, ∃ before after,
        (pairs.toList.take k).foldlM (Distribution.deposit place) ⟨target, starts⟩ = .ok before
        ∧ Distribution.deposit place before (pairs.keys.get k, pairs.values.get k) = .ok after
        ∧ before.cursors.get (bucketAt place (pairs.keys.get k, pairs.values.get k)) = s k
        ∧ after.target = before.target.set (s k) (pairs.keys.get k) (pairs.values.get k))
      ∧ ∃ final,
        pairs.toList.foldlM (Distribution.deposit place) ⟨target, starts⟩ = .ok final
        ∧ pairs.distribute direction place target = .ok final.target
        ∧ ∀ front b back, direction.bucketOrder = front ++ b :: back →
          final.cursors.get b = (back.head?.map starts.get).getD n
  := by
  intro keys
  have hreadPair : ∀ pair ∈ pairs.toList, ∃ digit, DigitKey.digit pair.1 place = .ok digit :=
    fun pair hpair => hread pair.1 (Pairs.mem_keys hpair)
  obtain ⟨counts, starts, hcounts, hstarts⟩ := Pairs.exists_cursors hlimit hreadPair direction
  obtain ⟨s, hs⟩ := pairs.exists_perm_placeOf direction place
  refine ⟨counts, starts, s, ?_, hstarts, Pairs.exists_counts_take hlimit hreadPair,
    Pairs.exists_foldlM_chain hcounts hstarts, ?_⟩
  · rw [← hcounts, Pairs.map_fst_toList]
  · intro target
    refine ⟨?_, ?_, ?_⟩
    · intro k
      obtain ⟨state, hstate⟩ := Pairs.exists_foldlM_deposit hlimit hreadPair hcounts hstarts
        (List.take_append_drop k pairs.toList).symm target
      use state, hstate
      apply Pairs.get_cursors hcounts hstarts hstate
    · intro k
      apply Pairs.exists_deposit_at hlimit hreadPair hcounts hstarts target k (s k) (hs k)
    · obtain ⟨final, hfinal⟩ := Pairs.exists_foldlM_deposit hlimit hreadPair hcounts hstarts
        (List.append_nil _).symm target
      refine ⟨final, hfinal, ?_, ?_⟩
      · apply Pairs.distribute_eq_ok.mpr
        use counts, hcounts, starts, hstarts, final, hfinal
      · intro front b back
        apply Pairs.get_cursors_of_all hcounts hstarts hfinal

end

/-- From 2 downwards, the bucket of 1 starts behind two keys, and its cursor is moved on by each of
its pairs, the first one before the last pair of the other bucket is laid down. -/
theorem cursors_of_lowest_bytes :
  let pairs : Pairs UInt32 String 4 := ⟨#v[0x0102, 0x0201, 0x0302, 0x0401], #v["a", "b", "c", "d"]⟩
  ∃ counts starts state final, Buckets.counts 0 pairs.keys.toList = .ok counts
    ∧ counts.starts .descending = .ok starts
    ∧ (pairs.toList.take 2).foldlM (Distribution.deposit 0) ⟨pairs, starts⟩ = .ok state
    ∧ state.cursors.get (Buckets.ofDigit 1) = 3
    ∧ state.cursors.get (Buckets.ofDigit 2) = 1
    ∧ pairs.toList.foldlM (Distribution.deposit 0) ⟨pairs, starts⟩ = .ok final
    ∧ final.cursors.get (Buckets.ofDigit 0) = 4
  := by
  intro pairs
  have hread : ∀ key ∈ pairs.keys.toList, ∃ digit, DigitKey.digit key 0 = .ok digit := by
    intro key _
    apply LawfulDigitKey.exists_digit key 0 (by decide)
  obtain ⟨counts, starts, _, hcounts, hstarts, -, -, htarget⟩ :=
    cursors_count_keys (by decide) .descending pairs hread
  obtain ⟨hstates, -, final, hfinal, -, hends⟩ := htarget pairs
  obtain ⟨state, hstate, hcursors⟩ := hstates 2
  refine ⟨counts, starts, state, final, hcounts, hstarts, hstate, ?_, ?_, hfinal, ?_⟩
  · rw [(hcursors (Buckets.ofDigit 1)).1]
    decide
  · rw [(hcursors (Buckets.ofDigit 2)).1]
    decide
  · apply hends (List.finRange bucketCount).tail.reverse (Buckets.ofDigit 0) []
    decide +kernel

end LockstepSort
