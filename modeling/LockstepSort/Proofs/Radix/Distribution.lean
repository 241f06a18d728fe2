import LockstepSort.Pairs.Lemmas
import LockstepSort.Proofs.Radix.Buckets
import LockstepSort.Radix.Distribution

/-!
# Distribution is a stable sort by one digit

While pairs are deposited, the cursor of a bucket stands at the first free place of its
segment.  So no pair is placed outside the columns, and in the end the buckets follow one
another, each with its pairs in their old order: the pairs are sorted stably by the digit.
-/

namespace LockstepSort

/-- Bucket after bucket, each in its old order, is the stable sort by bucket. -/
theorem flatMap_inBucket {α : Type} (direction : Direction) (bucketOf : α → Fin bucketCount)
    (list : List α) :
  direction.bucketOrder.flatMap (inBucket bucketOf list)
    = direction.stableSort (fun a => (bucketOf a).val) list
  := by
  apply Direction.isStableSort_iff.mp
  constructor
  · apply List.pairwise_flatMap.mpr
    constructor
    · intro bucket _
      apply List.pairwise_of_forall_mem_list
      intro a ha b hb
      rw [eq_of_mem_inBucket ha, eq_of_mem_inBucket hb]
      apply (direction.isRanking_admits id).refl
    · apply direction.pairwise_bucketOrder.imp
      intro b c hbc x hx y hy
      rw [eq_of_mem_inBucket hx, eq_of_mem_inBucket hy]
      apply Direction.admits_of_precedes hbc
  · intro a
    rw [List.filter_flatMap, flatMap_eq_of_eq_nil direction.nodup_bucketOrder
      (direction.mem_bucketOrder (bucketOf a))]
    · rw [inBucket, List.filter_filter]
      apply List.filter_congr
      intro b _
      simp only [Direction.tied_admits_nat, Fin.val_inj, eq_comm, Bool.and_self]
    · intro bucket _ hbucket
      apply List.filter_eq_nil_iff.mpr
      intro b hb
      simpa [Direction.tied_admits_nat, eq_of_mem_inBucket hb, Fin.val_inj] using hbucket.symm

/-! ### Depositing pairs -/

namespace Distribution

variable {K V : Type} [DigitKey K] {n place : Nat} {direction : Direction}
  {list done rest : List (K × V)} {pair : K × V} {state state' : Distribution K V n}

/-- The pairs of `done`, out of those of `list`, lie in their buckets, and the cursor of each
bucket stands behind those of its pairs. -/
structure Deposited (direction : Direction) (place : Nat) (list done : List (K × V))
    (state : Distribution K V n) : Prop where
  cursor (b : Fin bucketCount) :
    state.cursors.get b
      = placesBefore direction.bucketOrder
          (fun b => (inBucket (bucketAt place) list b).length) b
        + (inBucket (bucketAt place) done b).length
  filled : Filled direction.bucketOrder (bucketAt place) list done state.target.toList

theorem deposit_eq_ok :
  deposit place state pair = .ok state'
    ↔ ∃ digit, DigitKey.digit pair.1 place = .ok digit
      ∧ ∃ h : state.cursors.get (Buckets.ofDigit digit) < n,
        ∃ cursors, state.cursors.advance (Buckets.ofDigit digit) = .ok cursors
          ∧ ⟨state.target.set ⟨_, h⟩ pair.1 pair.2, cursors⟩ = state'
  := by
  constructor
  · intro h
    obtain ⟨digit, hdigit, h⟩ := bind_eq_ok.mp h
    use digit, Attempt.ask_eq_ok.mp hdigit
    dsimp only at h
    split at h
    next hposition =>
        obtain ⟨cursors, hcursors, hstate⟩ := bind_eq_ok.mp h
        use hposition, cursors, Attempt.ask_eq_ok.mp hcursors, Except.ok.inj hstate
    next => cases h
  · rintro ⟨digit, hdigit, hposition, cursors, hcursors, rfl⟩
    apply bind_eq_ok.mpr
    use digit, Attempt.ask_eq_ok.mpr hdigit
    rw [dif_pos hposition]
    apply bind_eq_ok.mpr
    use cursors, Attempt.ask_eq_ok.mpr hcursors
    rfl

/-- The cursor of the next pair's bucket stands inside the columns, and the pair is in its
bucket once it is written there. -/
theorem Deposited.next
    (hlist : list = done ++ pair :: rest) (h : Deposited direction place list done state) :
  ∃ hposition : state.cursors.get (bucketAt place pair) < n,
    Filled direction.bucketOrder (bucketAt place) list (done ++ [pair])
      (state.target.set ⟨_, hposition⟩ pair.1 pair.2).toList
  := by
  obtain ⟨front, slot, back, htarget, hfront, hfilled⟩ :=
    h.filled.next direction.nodup_bucketOrder (direction.mem_bucketOrder _) hlist
  rw [← h.cursor] at hfront
  have hlength := congrArg List.length htarget
  rw [Pairs.length_toList, List.length_append, List.length_cons, hfront] at hlength
  have hposition : state.cursors.get (bucketAt place pair) < n := by omega
  have hset : (front ++ slot :: back).set front.length pair = front ++ pair :: back := by
    rw [List.set_append_right front.length pair (Nat.le_refl _), Nat.sub_self]
    rfl
  use hposition
  rw [Pairs.toList_set, htarget]
  simp only [← hfront]
  rw [hset]
  apply hfilled

theorem Deposited.keep
    (hlist : list = done ++ pair :: rest) (h : Deposited direction place list done state)
    (hstep : deposit place state pair = .ok state') :
  Deposited direction place list (done ++ [pair]) state'
  := by
  obtain ⟨digit, hdigit, _, cursors, hcursors, rfl⟩ := deposit_eq_ok.mp hstep
  obtain ⟨_, hfilled⟩ := h.next hlist
  simp only [ofDigit_eq_bucketAt hdigit] at hcursors ⊢
  constructor
  · intro b
    rw [Buckets.get_advance hcursors, h.cursor, inBucket_append, List.length_append]
    by_cases hb : b = bucketAt place pair
    · subst hb
      simp [Nat.add_assoc]
    · rw [if_neg hb, inBucket_singleton_of_ne hb]
      rfl
  · apply hfilled

/-- A pair whose digit can be read is deposited. -/
theorem Deposited.exists_deposit
    (hlimit : n < sizeLimit) (hlist : list = done ++ pair :: rest)
    (hread : ∃ digit, DigitKey.digit pair.1 place = .ok digit)
    (h : Deposited direction place list done state) :
  ∃ state', deposit place state pair = .ok state'
  := by
  obtain ⟨digit, hdigit⟩ := hread
  obtain ⟨hposition, -⟩ := h.next hlist
  simp only [← ofDigit_eq_bucketAt hdigit] at hposition
  have hadvance := Buckets.advance_eq_ok.mpr
    ⟨show state.cursors.get (Buckets.ofDigit digit) + 1 < sizeLimit by omega, rfl⟩
  exact ⟨_, deposit_eq_ok.mpr ⟨digit, hdigit, hposition, _, hadvance, rfl⟩⟩

end Distribution

/-! ### Distributing pairs -/

namespace Pairs

variable {K V : Type} [DigitKey K] {n place : Nat} {direction : Direction}
  {pairs target result : Pairs K V n}

/-- The counts of the buckets add up to the number of pairs. -/
theorem sum_length_inBucket (direction : Direction) (place : Nat) (list : List (K × V)) :
  (direction.bucketOrder.map fun b => (inBucket (bucketAt place) list b).length).sum
    = list.length
  := by
  rw [← List.length_flatMap, flatMap_inBucket]
  apply (direction.stableSort_perm _ list).length_eq

theorem distribute_eq_ok :
  pairs.distribute direction place target = .ok result
    ↔ ∃ counts, Buckets.counts place (pairs.toList.map Prod.fst) = .ok counts
      ∧ ∃ cursors, counts.starts direction = .ok cursors
        ∧ ∃ state : Distribution K V n,
          pairs.toList.foldlM (Distribution.deposit place) ⟨target, cursors⟩ = .ok state
            ∧ state.target = result
  := by
  simp only [distribute, bind_eq_ok, Attempt.ask_eq_ok, Attempt.within_eq_ok, map_fst_toList]

/-- The cursors stand at the starts of their buckets before the first pair is deposited. -/
theorem deposited_nil
    {counts cursors : Buckets}
    (hcounts : Buckets.counts place (pairs.toList.map Prod.fst) = .ok counts)
    (hcursors : counts.starts direction = .ok cursors) :
  Distribution.Deposited direction place pairs.toList []
    (⟨target, cursors⟩ : Distribution K V n)
  where
  cursor b := by
    rw [Buckets.get_starts hcursors, funext (Buckets.get_counts hcounts)]
    rfl
  filled := by
    apply Filled.nil direction.nodup_bucketOrder
    rw [sum_length_inBucket, length_toList, length_toList]

/-- The pairs that have been deposited, out of all pairs, lie in their buckets. -/
theorem deposited_of_foldlM
    {counts cursors : Buckets} {done rest : List (K × V)} {state : Distribution K V n}
    (hcounts : Buckets.counts place (pairs.toList.map Prod.fst) = .ok counts)
    (hcursors : counts.starts direction = .ok cursors) (hlist : pairs.toList = done ++ rest)
    (h : done.foldlM (Distribution.deposit place) ⟨target, cursors⟩ = .ok state) :
  Distribution.Deposited direction place pairs.toList done state
  := by
  apply foldlM_keeps h (deposited_nil hcounts hcursors)
  intro done' pair rest' state state' hdone h hstep
  apply h.keep _ hstep
  · exact rest' ++ rest
  · rw [hlist, hdone, List.append_assoc, List.cons_append]

/-- A distribution lays the buckets down one after the other, each in its old order. -/
theorem toList_distribute_eq_flatMap (h : pairs.distribute direction place target = .ok result) :
  result.toList = direction.bucketOrder.flatMap (inBucket (bucketAt place) pairs.toList)
  := by
  obtain ⟨counts, hcounts, cursors, hcursors, state, hstate, rfl⟩ := distribute_eq_ok.mp h
  have hdeposited := deposited_of_foldlM hcounts hcursors (List.append_nil _).symm hstate
  apply hdeposited.filled.eq_flatMap

/-- A distribution is a stable sort by the digit. -/
theorem toList_distribute (h : pairs.distribute direction place target = .ok result) :
  result.toList = direction.stableSort (fun pair => digitAt pair.1 place) pairs.toList
  := by
  rw [toList_distribute_eq_flatMap h, flatMap_inBucket]
  rfl

/-- Only pairs whose digits can be read are distributed. -/
theorem exists_digit_of_distribute (h : pairs.distribute direction place target = .ok result) :
  ∀ pair ∈ pairs.toList, ∃ digit, DigitKey.digit pair.1 place = .ok digit
  := by
  obtain ⟨counts, hcounts, -⟩ := distribute_eq_ok.mp h
  intro pair hpair
  apply Buckets.exists_digit_of_counts hcounts
  apply List.mem_map_of_mem hpair

section

variable (hlimit : n < sizeLimit)
  (hread : ∀ pair ∈ pairs.toList, ∃ digit, DigitKey.digit pair.1 place = .ok digit)
include hlimit hread

/-- Pairs whose digits can be read are counted, and their buckets have starts. -/
theorem exists_cursors (direction : Direction) :
  ∃ counts cursors, Buckets.counts place (pairs.toList.map Prod.fst) = .ok counts
    ∧ counts.starts direction = .ok cursors
  := by
  obtain ⟨counts, hcounts⟩ := Buckets.exists_counts (by rwa [length_toList]) hread
  obtain ⟨cursors, hcursors⟩ : ∃ cursors, counts.starts direction = .ok cursors := by
    apply Buckets.exists_starts
    rwa [funext (Buckets.get_counts hcounts), sum_length_inBucket, length_toList]
  use counts, cursors

/-- Pairs whose digits can be read are deposited, one after the other. -/
theorem exists_foldlM_deposit
    {counts cursors : Buckets} {done rest : List (K × V)}
    (hcounts : Buckets.counts place (pairs.toList.map Prod.fst) = .ok counts)
    (hcursors : counts.starts direction = .ok cursors) (hlist : pairs.toList = done ++ rest)
    (target : Pairs K V n) :
  ∃ state, done.foldlM (Distribution.deposit place) ⟨target, cursors⟩ = .ok state
  := by
  have hwhole {done' rest' : List (K × V)} {pair : K × V} (hdone : done = done' ++ pair :: rest') :
      pairs.toList = done' ++ pair :: (rest' ++ rest) := by
    rw [hlist, hdone, List.append_assoc, List.cons_append]
  apply exists_foldlM (deposited_nil hcounts hcursors)
  · intro done' pair rest' state state' hdone h hstep
    apply h.keep (hwhole hdone) hstep
  · intro done' pair rest' state hdone h
    apply h.exists_deposit hlimit (hwhole hdone)
    apply hread
    simp [hwhole hdone]

/-- Pairs whose digits can be read are distributed. -/
theorem exists_distribute (direction : Direction) (target : Pairs K V n) :
  ∃ result, pairs.distribute direction place target = .ok result
  := by
  obtain ⟨counts, cursors, hcounts, hcursors⟩ := exists_cursors hlimit hread direction
  obtain ⟨state, hstate⟩ := exists_foldlM_deposit hlimit hread hcounts hcursors
    (List.append_nil _).symm target
  use state.target
  apply distribute_eq_ok.mpr
  use counts, hcounts, cursors, hcursors, state, hstate

/-- What stood in the columns before does not show in what a distribution leaves there. -/
theorem exists_distribute_eq (direction : Direction) :
  ∃ result, ∀ target, pairs.distribute direction place target = .ok result
  := by
  obtain ⟨result, hresult⟩ := exists_distribute hlimit hread direction pairs
  use result
  intro target
  obtain ⟨result', hresult'⟩ := exists_distribute hlimit hread direction target
  have hlists := (toList_distribute hresult').trans (toList_distribute hresult).symm
  rw [hresult', toList_injective hlists]

end

end Pairs

end LockstepSort
