import LockstepSort.Proofs.Radix.Sort
import Mathlib.Data.Fintype.EquivFin

/-!
# Where a distribution puts the pairs

A distribution puts each pair behind all those of the buckets in front of its own, and behind
those of its bucket that come before it.  No two pairs have the same place, so each place is
written once, and nothing is left of what stood there before.
-/

namespace LockstepSort

/-- The order of the buckets is that of the digits, upwards or downwards. -/
theorem Direction.map_val_bucketOrder (direction : Direction) :
  direction.bucketOrder.map Fin.val
    = match direction with
      | .ascending => List.range 256
      | .descending => (List.range 256).reverse
  := by
  cases direction with
  | ascending => apply List.map_coe_finRange_eq_range
  | descending => rw [bucketOrder, List.map_reverse, List.map_coe_finRange_eq_range, bucketCount]

section

variable {K V : Type} [DigitKey K] {n place : Nat} {direction : Direction} {pairs : Pairs K V n}

namespace Pairs

omit [DigitKey K] in
/-- A position cuts the list of the pairs around the pair there. -/
theorem toList_eq_take_drop (pairs : Pairs K V n) (k : Fin n) :
  pairs.toList = pairs.toList.take k
    ++ (pairs.keys.get k, pairs.values.get k) :: pairs.toList.drop (k + 1)
  := by
  have hk : k.val < pairs.toList.length := by
    rw [length_toList]
    apply k.isLt
  apply (List.take_append_drop k pairs.toList).symm.trans
  rw [List.drop_eq_getElem_cons hk, getElem_toList _ k.isLt]
  rfl

/-- The places of the pairs are a permutation of the positions. -/
theorem exists_perm_placeOf (direction : Direction) (place : Nat) (pairs : Pairs K V n) :
  ∃ s : Equiv.Perm (Fin n), ∀ k : Fin n,
    s k = placeOf direction.bucketOrder (bucketAt place) pairs.toList
      (k.cast pairs.length_toList.symm)
  := by
  have hmem (pair : K × V) : bucketAt place pair ∈ direction.bucketOrder :=
    direction.mem_bucketOrder _
  have hlt (k : Fin n) : placeOf direction.bucketOrder (bucketAt place) pairs.toList
      (k.cast pairs.length_toList.symm) < n := by
    apply (placeOf_lt direction.bucketOrder (bucketAt place) pairs.toList _).trans_le
    apply (placesBefore_add_le_sum _ (hmem _)).trans_eq
    rw [sum_length_inBucket, length_toList]
  have hinjective : Function.Injective fun k : Fin n => (⟨_, hlt k⟩ : Fin n) := by
    intro j k hjk
    have hplace := placeOf_injective (fun pair _ => hmem pair) (Fin.mk.inj hjk)
    apply Fin.cast_injective _ hplace
  use Equiv.ofBijective _ (Finite.injective_iff_bijective.mp hinjective)
  intro k
  rfl

/-- When the pairs before it are deposited, a pair is written at its place. -/
theorem exists_deposit_at
    {counts cursors : Buckets} (hlimit : n < sizeLimit)
    (hread : ∀ pair ∈ pairs.toList, ∃ digit, DigitKey.digit pair.1 place = .ok digit)
    (hcounts : Buckets.counts place (pairs.toList.map Prod.fst) = .ok counts)
    (hcursors : counts.starts direction = .ok cursors) (target : Pairs K V n) (k position : Fin n)
    (hposition : position = placeOf direction.bucketOrder (bucketAt place) pairs.toList
      (k.cast pairs.length_toList.symm)) :
  ∃ before after, (pairs.toList.take k).foldlM (Distribution.deposit place) ⟨target, cursors⟩
      = .ok before
    ∧ Distribution.deposit place before (pairs.keys.get k, pairs.values.get k) = .ok after
    ∧ before.cursors.get (bucketAt place (pairs.keys.get k, pairs.values.get k)) = position
    ∧ after.target = before.target.set position (pairs.keys.get k) (pairs.values.get k)
  := by
  have hlist := pairs.toList_eq_take_drop k
  obtain ⟨before, hbefore⟩ := exists_foldlM_deposit hlimit hread hcounts hcursors hlist target
  have hdeposited := deposited_of_foldlM hcounts hcursors hlist hbefore
  obtain ⟨after, hafter⟩ := hdeposited.exists_deposit hlimit hlist
    (hread _ (by rw [hlist]; simp))
  have hcursor : before.cursors.get (bucketAt place (pairs.keys.get k, pairs.values.get k))
      = position := by
    simp only [hposition, hdeposited.cursor, placeOf, Fin.getElem_fin, Fin.val_cast,
      getElem_toList _ k.isLt]
    rfl
  refine ⟨before, after, hbefore, hafter, hcursor, ?_⟩
  obtain ⟨digit, hdigit, hlt, _, _, rfl⟩ := Distribution.deposit_eq_ok.mp hafter
  have hwritten : before.cursors.get (Buckets.ofDigit digit) = position := by
    rw [ofDigit_eq_bucketAt hdigit, hcursor]
  obtain rfl : ⟨_, hlt⟩ = position := Fin.ext hwritten
  rfl

end Pairs

/-- One pass of a sort by digits lays the pairs down bucket after bucket, each bucket in its old
order, and leaves alone the columns that it reads.  In the other columns each place is written
once, so that nothing is left of what stood there. -/
theorem pass_lays_buckets_down (hlimit : n < sizeLimit) (direction : Direction)
    (pairs : Pairs K V n)
    (hread : ∀ key ∈ pairs.keys.toList, ∃ digit, DigitKey.digit key place = .ok digit) :
  let digits := match direction with
    | .ascending => List.range 256
    | .descending => (List.range 256).reverse
  ∃ (result : Pairs K V n) (counts starts : Buckets) (s : Equiv.Perm (Fin n)),
    result.toList = digits.flatMap (fun digit =>
      pairs.toList.filter fun pair => digitAt pair.1 place = digit)
    ∧ (∀ target, pairs.distribute direction place target = .ok result)
    ∧ (∀ state : RadixState K V n, state.current place = pairs →
      ∃ state', state.pass direction place = .ok state'
        ∧ state'.current place = pairs ∧ state'.current (place + 1) = result)
    ∧ Buckets.counts place pairs.keys.toList = .ok counts
    ∧ counts.starts direction = .ok starts
    ∧ ∀ (target : Pairs K V n) (k : Fin n), ∃ before after,
      (pairs.toList.take k).foldlM (Distribution.deposit place) ⟨target, starts⟩ = .ok before
      ∧ Distribution.deposit place before (pairs.keys.get k, pairs.values.get k) = .ok after
      ∧ before.cursors.get (bucketAt place (pairs.keys.get k, pairs.values.get k)) = s k
      ∧ after.target = before.target.set (s k) (pairs.keys.get k) (pairs.values.get k)
  := by
  intro digits
  have hreadPair : ∀ pair ∈ pairs.toList, ∃ digit, DigitKey.digit pair.1 place = .ok digit := by
    intro pair hpair
    apply hread
    rw [← Pairs.map_fst_toList]
    apply List.mem_map_of_mem hpair
  obtain ⟨result, hresult⟩ := Pairs.exists_distribute_eq hlimit hreadPair direction
  obtain ⟨counts, starts, hcounts, hstarts⟩ := Pairs.exists_cursors hlimit hreadPair direction
  obtain ⟨s, hs⟩ := pairs.exists_perm_placeOf direction place
  refine ⟨result, counts, starts, s, ?_, hresult, ?_, ?_, hstarts, ?_⟩
  · have hdigits : digits = direction.bucketOrder.map Fin.val :=
      direction.map_val_bucketOrder.symm
    rw [Pairs.toList_distribute_eq_flatMap (hresult pairs), hdigits, List.flatMap_map]
    apply List.flatMap_congr
    intro bucket _
    apply List.filter_congr
    intro pair _
    apply decide_eq_decide.mpr Fin.ext_iff
  · rintro state rfl
    obtain ⟨put, hpass, hput⟩ := RadixState.exists_pass_eq direction state place
    refine ⟨put result, ?_, (hput result).1, (hput result).2⟩
    rw [hpass, hresult]
    rfl
  · rw [← Pairs.map_fst_toList, hcounts]
  · intro target k
    apply Pairs.exists_deposit_at hlimit hreadPair hcounts hstarts target k (s k) (hs k)

end

/-- Laid down by their lowest bytes, from 2 downwards, keys with the same lowest byte keep their
order, and each of the other columns is written over. -/
theorem buckets_of_lowest_bytes :
  let pairs : Pairs UInt32 String 4 := ⟨#v[0x0102, 0x0201, 0x0302, 0x0401], #v["a", "b", "c", "d"]⟩
  let sorted : Pairs UInt32 String 4 := ⟨#v[0x0102, 0x0302, 0x0201, 0x0401], #v["a", "c", "b", "d"]⟩
  ∀ target, pairs.distribute .descending 0 target = .ok sorted
  := by
  intro pairs sorted target
  have hread : ∀ key ∈ pairs.keys.toList, ∃ digit, DigitKey.digit key 0 = .ok digit := by
    intro key _
    apply LawfulDigitKey.exists_digit key 0 (by decide)
  obtain ⟨result, _, _, _, hresult, hdistribute, -⟩ :=
    pass_lays_buckets_down (by decide) .descending pairs hread
  have hsorted : result.toList = sorted.toList := by
    rw [hresult]
    decide +kernel
  rw [hdistribute, Pairs.toList_injective hsorted]

end LockstepSort
