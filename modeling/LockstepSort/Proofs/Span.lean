import LockstepSort.Proofs.Likeness.Sort
import LockstepSort.Proofs.Trace

/-!
# Digits that all keys have in common

A pass over a digit that all keys have in common moves the pairs from the one columns to the other
and leaves them in their order.  So it makes no difference which of the two spans is read if the
keys have in common what only the full span reads, even though the passes may then end in other
columns.  That goes for each range that is sorted by digits, so it goes for a whole sort.
-/

namespace LockstepSort

/-- The digits of a key at the places that only the full span reads. -/
def HasUpperDigits {K : Type} [DigitKey K] (digits : Nat → UInt8) (key : K) : Prop :=
  ∀ place, DigitSpan.low32.passes K ≤ place → place < DigitSpan.full.passes K →
    DigitKey.digit key place = .ok (digits place)

variable {K V : Type} [DigitKey K] {n : Nat}

/-! ### Sorting by digits -/

/-- Pairs whose keys have a digit in common are distributed by it in their old order. -/
theorem Pairs.distribute_of_common {place : Nat} {digit : UInt8} {pairs : Pairs K V n}
    (hlimit : n < sizeLimit)
    (hdigit : ∀ pair ∈ pairs.toList, DigitKey.digit pair.1 place = .ok digit)
    (direction : Direction) (target : Pairs K V n) :
  pairs.distribute direction place target = .ok pairs
  := by
  obtain ⟨result, hresult⟩ := exists_distribute hlimit
    (fun pair hpair => ⟨digit, hdigit pair hpair⟩) direction target
  have hlist : result.toList = pairs.toList := by
    rw [toList_distribute hresult]
    apply Direction.stableSort_of_pairwise
    apply List.pairwise_of_forall_mem_list
    intro a ha b hb
    rw [digitAt_of_digit (hdigit a ha), digitAt_of_digit (hdigit b hb)]
    apply (direction.isRanking_admits id).refl
  rw [hresult, toList_injective hlist]

namespace RadixState

variable {place passes passes' : Nat} {direction : Direction} {state : RadixState K V n}

/-- A pass over a digit that all keys have in common moves the pairs in their order. -/
theorem exists_pass_of_common {digit : UInt8} (direction : Direction) (hlimit : n < sizeLimit)
    (hdigit : ∀ pair ∈ (state.current place).toList,
      DigitKey.digit pair.1 place = .ok digit) :
  ∃ state', pass direction state place = .ok state'
    ∧ state'.current (place + 1) = state.current place
  := by
  obtain ⟨put, hpass, hput⟩ := exists_pass_eq direction state place
  use put (state.current place)
  constructor
  · rw [hpass, Pairs.distribute_of_common hlimit hdigit]
    rfl
  · rw [(hput _).2]

/-- One more pass makes no difference if all keys have its digit in common. -/
theorem live_sort_succ {digit : UInt8} (hlimit : n < sizeLimit)
    (hdigit : ∀ pair ∈ state.live.toList, DigitKey.digit pair.1 passes = .ok digit) :
  Attempt.within live (sort direction (passes + 1) state)
    = Attempt.within live (sort direction passes state)
  := by
  unfold sort
  rw [List.range_succ, List.foldlM_append]
  cases hdone : (List.range passes).foldlM (pass direction) state with
  | error breakdown => rfl
  | ok before =>
      have hperm := current_foldlM_perm hdone
      obtain ⟨after, hpass, hafter⟩ := exists_pass_of_common direction hlimit
        fun pair hpair => hdigit pair (hperm.mem_iff.mp hpair)
      -- The passes are one more, so that the result is taken from the other columns.
      unfold current at hafter
      simp only [List.foldlM_cons, List.foldlM_nil, bind, Except.bind, hpass]
      by_cases hparity : passes % 2 = 0
      · have hnext : ¬ (passes + 1) % 2 = 0 := by omega
        simp only [if_pos hparity, if_neg hnext] at hafter ⊢
        exact congrArg Except.ok hafter
      · have hnext : (passes + 1) % 2 = 0 := by omega
        simp only [if_neg hparity, if_pos hnext] at hafter ⊢
        exact congrArg Except.ok hafter

/-- More passes make no difference if all keys have their digits in common. -/
theorem live_sort_of_common {digits : Nat → UInt8} (hlimit : n < sizeLimit) (hle : passes ≤ passes')
    (hdigits : ∀ pair ∈ state.live.toList, ∀ place, passes ≤ place → place < passes' →
      DigitKey.digit pair.1 place = .ok (digits place)) :
  Attempt.within live (sort direction passes' state)
    = Attempt.within live (sort direction passes state)
  := by
  induction hle with
  | refl => rfl
  | @step passes' hle ih =>
      rw [live_sort_succ hlimit fun pair hpair => hdigits pair hpair passes' hle (by omega)]
      apply ih
      intro pair hpair place hplace hplace'
      apply hdigits pair hpair place hplace (by omega)

/-- The spans make no difference to keys that have the upper digits in common. -/
theorem live_sort_full {digits : Nat → UInt8} (hlimit : n < sizeLimit)
    (hdigits : ∀ pair ∈ state.live.toList, HasUpperDigits digits pair.1) :
  Attempt.within live (sort direction (DigitSpan.full.passes K) state)
    = Attempt.within live (sort direction (DigitSpan.low32.passes K) state)
  := live_sort_of_common hlimit DigitSpan.low32.passes_le_places hdigits

end RadixState

/-! ### Sorts -/

/-- The strategies that differ only in the span take up windows alike, and agree on pairs whose keys
have the upper digits in common. -/
theorem Run.accord_of_common (hlimit : n < sizeLimit) (strategy : Strategy) (digits : Nat → UInt8) :
  Accord (K := K) (V := V) Eq (fun pair => HasUpperDigits digits pair.1) n
    { strategy with span := .full } { strategy with span := .low32 }
  where
  direction := rfl
  action _ := rfl
  sorts := by
    intro length pairs pairs' hlength hpairs hdigits target target'
    obtain rfl := Pairs.like_eq_iff.mp hpairs
    have hlive : (RadixState.mk pairs target).live.Like Eq (RadixState.mk pairs target').live :=
      hpairs
    have htarget := RadixState.both_sort Likeness.eq DigitSpan.low32.passes_le_places hlive
      strategy.direction
    simp only [Pairs.like_eq_iff] at htarget ⊢
    apply Attempt.Both.within_eq_iff.mp
    rw [RadixState.live_sort_full (by omega) hdigits]
    apply Attempt.Both.within_eq_iff.mpr htarget

namespace Pairs

variable {pairs : Pairs K V n} {digits : Nat → UInt8}

/-- Pairs in a window whose keys have the upper digits in common are sorted alike under both spans,
whether or not the sort is broken off. -/
theorem sortWindow_full {strategy : Strategy} {w : Window n} {scratch : Option (Scratch K V)}
    (hlimit : n < sizeLimit) (hserved : strategy.ServedBy w.length scratch)
    (hdigits : ∀ pair ∈ (pairs.slice w).toList, HasUpperDigits digits pair.1) :
  let full := pairs.sortWindow { strategy with span := .full } w scratch
  let low := pairs.sortWindow { strategy with span := .low32 } w scratch
  full.result = low.result ∧ full.keys = low.keys ∧ full.values = low.values
    ∧ full.trace = low.trace
  := by
  intro full low
  have hstart : (Run.start pairs scratch).Like Eq (.start pairs scratch) :=
    ⟨like_eq_iff.mpr rfl, rfl⟩
  have hboth := hstart.sort_of_accord Likeness.eq (Run.accord_of_common hlimit strategy digits) 0
    hdigits hserved hserved
  obtain ⟨⟨hpairs, hvisits⟩, -, -⟩ := hboth.state
  have hcolumns := like_eq_iff.mp hpairs
  refine ⟨?_, ?_, ?_, ?_⟩
  · exact congrArg (Except.mapError Failure.faulted) hboth.result
  · exact congrArg (fun pairs => pairs.keys.toArray) hcolumns
  · exact congrArg (fun pairs => pairs.values.toArray) hcolumns
  · rw [trace_sortWindow, trace_sortWindow, Run.events, Run.events, hvisits]

/-- Columns of pairs whose keys have the upper digits in common are sorted by digits alike under
both spans. -/
theorem radixSort_full (hlimit : n < sizeLimit)
    (hdigits : ∀ pair ∈ pairs.toList, HasUpperDigits digits pair.1) (direction : Direction)
    (scratchKeys : Array K) (scratchValues : Array V) :
  radixSort direction .full pairs.keys.toArray pairs.values.toArray scratchKeys scratchValues
    = radixSort direction .low32 pairs.keys.toArray pairs.values.toArray scratchKeys scratchValues
  := by
  let columns (live : Pairs K V n) : Array K × Array V := (live.keys.toArray, live.values.toArray)
  have hlive (state : RadixState K V n) (hstate : state.live = pairs) :
      Attempt.within (columns ∘ RadixState.live)
          (RadixState.sort direction (DigitSpan.full.passes K) state)
        = Attempt.within (columns ∘ RadixState.live)
          (RadixState.sort direction (DigitSpan.low32.passes K) state) := by
    rw [← Attempt.within_within, ← Attempt.within_within, RadixState.live_sort_full hlimit]
    rwa [hstate]
  rw [radixSort_toArray, radixSort_toArray]
  split
  · split
    · apply hlive _ rfl
    · rfl
  · rfl

end Pairs

/-- Where the keys in a window have the upper digits in common, a sort of it does not depend on
whether these are read: it comes to the same result, with the same splits, and leaves the same
columns, also if it fails.  A sort of whole columns by digits does not either. -/
theorem spans_agree_on_common_digits (keys : Array K) (values : Array V)
    (hlimit : keys.size < sizeLimit) :
  (∀ (strategy : Strategy) (scratch : Option (Scratch K V)) (offset length : Nat)
      (digits : Nat → UInt8),
    (∀ key ∈ stretch keys offset length, HasUpperDigits digits key) →
    let full := sortWindowWith { strategy with span := .full } scratch keys values offset length
    let low := sortWindowWith { strategy with span := .low32 } scratch keys values offset length
    full.result = low.result ∧ full.keys = low.keys ∧ full.values = low.values
      ∧ full.trace = low.trace)
  ∧ ∀ (direction : Direction) (scratchKeys : Array K) (scratchValues : Array V)
      (digits : Nat → UInt8),
    (∀ key ∈ keys, HasUpperDigits digits key) →
    radixSort direction .full keys values scratchKeys scratchValues
      = radixSort direction .low32 keys values scratchKeys scratchValues
  := by
  constructor
  · intro strategy scratch offset length digits hdigits full low
    have hchecks : checked { strategy with span := .low32 } scratch keys values offset length
        = checked { strategy with span := .full } scratch keys values offset length := rfl
    cases hchecked : checked { strategy with span := .full } scratch keys values offset length with
    | error failure =>
        rw [show full = _ from sortWindowWith_of_error hchecked,
          show low = _ from sortWindowWith_of_error (hchecks.trans hchecked)]
        exact ⟨rfl, rfl, rfl, rfl⟩
    | ok request =>
        obtain ⟨hpasses, rfl⟩ := exists_passes hchecked
        rw [show full = _ from sortWindowWith_of_checked hchecked,
          show low = _ from sortWindowWith_of_checked (hchecks.trans hchecked)]
        apply Pairs.sortWindow_full hlimit hpasses.served
        intro pair hpair
        apply hdigits
        rw [← hpasses.toList_keys_range, ← Pairs.map_fst_toList]
        apply List.mem_map_of_mem hpair
  · intro direction scratchKeys scratchValues digits hdigits
    by_cases hvalues : values.size = keys.size
    · let pairs : Pairs K V keys.size := .ofArrays keys values hvalues
      have hpairs : ∀ pair ∈ pairs.toList, HasUpperDigits digits pair.1 := by
        intro pair hpair
        apply hdigits
        have hmem := List.mem_map_of_mem (f := Prod.fst) hpair
        rw [Pairs.map_fst_toList] at hmem
        apply Array.mem_toList_iff.mp hmem
      apply Pairs.radixSort_full hlimit hpairs
    · simp only [radixSort, Pairs.ofArrays?_eq_none hvalues]

/-- Keys that differ in their lowest digits only, all with the digit 7 at place 4, are sorted alike
whether 4 digits are read or 8, in a window as well as on the whole. -/
theorem spans_agree_on_upper_digit_seven :
  let keys : Array UInt64 := #[30064771075, 30064771073, 30064771074, 30064771073, 5]
  let values := #["a", "b", "c", "d", "e"]
  let ending (span : DigitSpan) :=
    sortWindowWith ⟨.descending, 2, none, span⟩ (some ⟨#[0, 0], #["", ""]⟩) keys values 0 4
  (ending .full).values = (ending .low32).values ∧ (ending .full).trace = (ending .low32).trace
    ∧ radixSort .ascending .full (keys.take 4) (values.take 4) (keys.take 4) (values.take 4)
      = radixSort .ascending .low32 (keys.take 4) (values.take 4) (keys.take 4) (values.take 4)
  := by
  intro keys values ending
  let digits (place : Nat) : UInt8 := if place = 4 then 7 else 0
  have hplaces : ∀ place < 8, 4 ≤ place → (stretch keys 0 4).map (DigitKey.digit · place)
      = List.replicate 4 (.ok (digits place)) := by
    decide +kernel
  have hdigits : ∀ key ∈ stretch keys 0 4, HasUpperDigits digits key := by
    intro key hkey place hlow hfull
    have hmem := List.mem_map_of_mem (f := (DigitKey.digit · place)) hkey
    rw [hplaces place hfull hlow] at hmem
    apply List.eq_of_mem_replicate hmem
  obtain ⟨hwindows, -⟩ := spans_agree_on_common_digits keys values (by decide)
  obtain ⟨-, -, hvalues, htrace⟩ := hwindows ⟨.descending, 2, none, .full⟩
    (some ⟨#[0, 0], #["", ""]⟩) 0 4 digits hdigits
  refine ⟨hvalues, htrace, ?_⟩
  obtain ⟨-, hcolumns⟩ := spans_agree_on_common_digits (keys.take 4) (values.take 4) (by decide)
  apply hcolumns .ascending (keys.take 4) (values.take 4) digits
  intro key hkey
  apply hdigits key (Array.mem_toList_iff.mpr hkey)

end LockstepSort
