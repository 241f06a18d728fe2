import LockstepSort.Proofs.Radix.Distribution
import LockstepSort.Radix.Sort
import Mathlib.Data.List.Permutation

/-!
# Sorting by digits is a stable sort by the number they spell

After each pass the columns that were filled last hold the stable sort by the number that
the digits read so far spell: a stable sort by a higher digit leaves the order by the lower
digits wherever it finds a tie.  Which columns were filled last depends on the parity of the
number of passes, and in the end the result is in the live columns.
-/

namespace LockstepSort

section

variable {K V : Type} [DigitKey K]

theorem digitValue_lt (places : Nat) (key : K) :
  digitValue places key < placeValue places
  := by
  induction places with
  | zero => exact Nat.zero_lt_one
  | succ place ih =>
      have hdigit := Nat.mul_le_mul_right (placeValue place) (digitAt_lt key place)
      rw [Nat.succ_mul] at hdigit
      rw [digitValue, placeValue, Nat.mul_comm _ bucketCount]
      omega

/-- The lowest `places` digits of a key can be read. -/
def HasDigits (places : Nat) (key : K) : Prop :=
  ∀ place < places, ∃ digit, DigitKey.digit key place = .ok digit

theorem hasDigits_of_le [LawfulDigitKey K] {places : Nat} (h : places ≤ DigitKey.places K)
    (key : K) :
  HasDigits places key
  := fun place hplace => LawfulDigitKey.exists_digit key place (Nat.lt_of_lt_of_le hplace h)

theorem hasDigits_succ {places : Nat} {key : K} :
  HasDigits (places + 1) key
    ↔ HasDigits places key ∧ ∃ digit, DigitKey.digit key places = .ok digit
  := Nat.forall_lt_succ_right

/-- The place of the next digit is the number of the digits before it. -/
theorem eq_length_of_range_eq {passes place : Nat} {done rest : List Nat}
    (h : List.range passes = done ++ place :: rest) :
  place = done.length ∧ place < passes
  := by
  have hget : (List.range passes)[done.length]? = some place := by
    rw [h, List.getElem?_append_right (Nat.le_refl _), Nat.sub_self]
    rfl
  obtain ⟨hlength, hplace⟩ := List.getElem?_eq_some_iff.mp hget
  rw [List.getElem_range] at hplace
  rw [List.length_range] at hlength
  omega

end

namespace RadixState

variable {K V : Type} [DigitKey K] {n place passes : Nat} {direction : Direction}
  {state state' result : RadixState K V n}

/-- The columns that hold the pairs after `passes` passes. -/
def current (state : RadixState K V n) (passes : Nat) : Pairs K V n :=
  if passes % 2 = 0 then state.live else state.scratch

/-- A pass distributes the current columns over the others, which are current after it, and leaves
them as they are. -/
theorem exists_pass_eq (direction : Direction) (state : RadixState K V n) (place : Nat) :
  ∃ put : Pairs K V n → RadixState K V n,
    pass direction state place = Attempt.within put
      ((state.current place).distribute direction place (state.current (place + 1)))
    ∧ ∀ filled, (put filled).current place = state.current place
      ∧ (put filled).current (place + 1) = filled
  := by
  unfold pass current
  by_cases hplace : place % 2 = 0
  · have hnext : ¬ (place + 1) % 2 = 0 := by omega
    simp only [if_pos hplace, if_neg hnext]
    exact ⟨_, rfl, fun _ => ⟨rfl, rfl⟩⟩
  · have hnext : (place + 1) % 2 = 0 := by omega
    simp only [if_neg hplace, if_pos hnext]
    exact ⟨_, rfl, fun _ => ⟨rfl, rfl⟩⟩

/-- A pass sorts the current columns stably by its digit. -/
theorem toList_current_pass (h : pass direction state place = .ok state') :
  (state'.current (place + 1)).toList
    = direction.stableSort (fun pair => digitAt pair.1 place) (state.current place).toList
  := by
  obtain ⟨put, hpass, hput⟩ := exists_pass_eq direction state place
  rw [hpass] at h
  obtain ⟨filled, hfilled, rfl⟩ := Attempt.within_eq_ok.mp h
  rw [(hput filled).2]
  apply Pairs.toList_distribute hfilled

/-- A pass comes to its end exactly if the digits that it reads can be read. -/
theorem exists_pass_iff (hlimit : n < sizeLimit) :
  (∃ state', pass direction state place = .ok state')
    ↔ ∀ pair ∈ (state.current place).toList, ∃ digit, DigitKey.digit pair.1 place = .ok digit
  := by
  obtain ⟨put, hpass, -⟩ := exists_pass_eq direction state place
  rw [hpass]
  constructor
  · rintro ⟨state', hstate'⟩
    obtain ⟨filled, hfilled, -⟩ := Attempt.within_eq_ok.mp hstate'
    apply Pairs.exists_digit_of_distribute hfilled
  · intro hread
    obtain ⟨filled, hfilled⟩ := Pairs.exists_distribute hlimit hread direction
      (state.current (place + 1))
    exact ⟨put filled, Attempt.within_eq_ok.mpr ⟨filled, hfilled, rfl⟩⟩

/-- After some passes, the current columns are sorted by the number that the digits of these
passes spell. -/
theorem toList_current_foldlM
    (h : (List.range passes).foldlM (pass direction) state = .ok state') :
  (state'.current passes).toList
    = direction.stableSort (fun pair => digitValue passes pair.1) state.live.toList
  := by
  rw [← List.length_range (n := passes)]
  -- The number of passes done says both which columns are current and which digits were read.
  apply foldlM_keeps (P := fun done state' =>
    (state'.current done.length).toList
      = direction.stableSort (fun pair => digitValue done.length pair.1) state.live.toList) h
  · symm
    apply Direction.stableSort_of_pairwise
    apply List.pairwise_of_forall
    intro a b
    apply (direction.isRanking_admits id).refl
  · intro done place rest before after hrange hdone hpass
    obtain ⟨rfl, -⟩ := eq_length_of_range_eq hrange
    rw [List.length_append, List.length_singleton, toList_current_pass hpass, hdone]
    apply Direction.stableSort_stableSort direction
    intro pair
    apply digitValue_lt

/-- After some passes, the current columns hold the pairs that the live columns held before. -/
theorem current_foldlM_perm (h : (List.range passes).foldlM (pass direction) state = .ok state') :
  (state'.current passes).toList.Perm state.live.toList
  := by
  rw [toList_current_foldlM h]
  apply Direction.stableSort_perm

/-- The result of a sort by digits lies in the live columns. -/
theorem toList_sort (h : sort direction passes state = .ok result) :
  result.live.toList
    = direction.stableSort (fun pair => digitValue passes pair.1) state.live.toList
  := by
  obtain ⟨state', hstate', hresult⟩ := bind_eq_ok.mp h
  rw [← toList_current_foldlM hstate', current]
  split at hresult
  next hparity =>
      obtain rfl := Except.ok.inj hresult
      rw [if_pos hparity]
  next hparity =>
      obtain rfl := Except.ok.inj hresult
      rw [if_neg hparity]

/-- A sort by digits comes to its end exactly if the passes do. -/
theorem exists_sort_iff_exists_foldlM :
  (∃ result, sort direction passes state = .ok result)
    ↔ ∃ state', (List.range passes).foldlM (pass direction) state = .ok state'
  := by
  constructor
  · rintro ⟨result, h⟩
    obtain ⟨state', hstate', -⟩ := bind_eq_ok.mp h
    exact ⟨state', hstate'⟩
  · rintro ⟨state', hstate'⟩
    by_cases hparity : passes % 2 = 0
    · exact ⟨_, bind_eq_ok.mpr ⟨state', hstate', if_pos hparity⟩⟩
    · exact ⟨_, bind_eq_ok.mpr ⟨state', hstate', if_neg hparity⟩⟩

/-- A sort by digits comes to its end exactly if all digits that it reads can be read. -/
theorem exists_sort_iff (hlimit : n < sizeLimit) :
  (∃ result, sort direction passes state = .ok result)
    ↔ ∀ pair ∈ state.live.toList, HasDigits passes pair.1
  := by
  rw [exists_sort_iff_exists_foldlM]
  induction passes with
  | zero =>
      constructor
      · intro _ pair _ place hplace
        cases hplace
      · intro _
        exact ⟨state, rfl⟩
  | succ passes ih =>
      simp only [hasDigits_succ, List.range_succ, List.foldlM_append, List.foldlM_cons,
        List.foldlM_nil, bind_pure, bind_eq_ok]
      constructor
      · rintro ⟨after, before, hbefore, hpass⟩ pair hpair
        have hread := (exists_pass_iff hlimit).mp ⟨after, hpass⟩
        exact ⟨ih.mp ⟨before, hbefore⟩ pair hpair,
          hread pair ((current_foldlM_perm hbefore).mem_iff.mpr hpair)⟩
      · intro hread
        obtain ⟨before, hbefore⟩ := ih.mpr fun pair hpair => (hread pair hpair).1
        obtain ⟨after, hpass⟩ := (exists_pass_iff hlimit).mpr fun pair hpair =>
          (hread pair ((current_foldlM_perm hbefore).mem_iff.mp hpair)).2
        exact ⟨after, before, hbefore, hpass⟩

end RadixState

/-! ### Columns given as arrays -/

section

variable {K V : Type} [DigitKey K] {direction : Direction} {span : DigitSpan}
  {keys : Array K} {values : Array V} {scratchKeys : Array K} {scratchValues : Array V}

/-- A sort by digits whose columns have unequal lengths is refused, and leaves the columns as
they are. -/
theorem radixSort_of_unequal
    (h : ¬ (values.size = keys.size ∧ scratchKeys.size = keys.size
      ∧ scratchValues.size = keys.size)) :
  ∃ column actual, radixSort direction span keys values scratchKeys scratchValues
    = .error ⟨.unequalLengths column actual keys.size, (keys, values)⟩
  := by
  unfold radixSort
  by_cases hvalues : values.size = keys.size
  · rw [Pairs.ofArrays?_eq_some hvalues]
    by_cases hkeys : scratchKeys.size = keys.size
    · have hnot : ¬ scratchValues.size = keys.size := fun hscratch =>
        h ⟨hvalues, hkeys, hscratch⟩
      use .scratchValues, scratchValues.size
      simp only [dif_pos hkeys, dif_neg hnot]
    · use .scratchKeys, scratchKeys.size
      simp only [dif_neg hkeys]
  · rw [Pairs.ofArrays?_eq_none hvalues]
    use .values, values.size

/-- The pairs of columns of one length are sorted stably by the number that their digits
spell. -/
theorem exists_radixSort [LawfulDigitKey K]
    (hlimit : keys.size < sizeLimit) (hvalues : values.size = keys.size)
    (hscratchKeys : scratchKeys.size = keys.size)
    (hscratchValues : scratchValues.size = keys.size) (direction : Direction)
    (span : DigitSpan) :
  ∃ sorted : Pairs K V keys.size,
    radixSort direction span keys values scratchKeys scratchValues
      = .ok (sorted.keys.toArray, sorted.values.toArray)
    ∧ sorted.toList = direction.stableSort (fun pair => digitValue (span.passes K) pair.1)
        (keys.toList.zip values.toList)
  := by
  let live : Pairs K V keys.size := ⟨⟨keys, rfl⟩, ⟨values, hvalues⟩⟩
  let scratch : Pairs K V keys.size :=
    ⟨⟨scratchKeys, hscratchKeys⟩, ⟨scratchValues, hscratchValues⟩⟩
  obtain ⟨state, hstate⟩ : ∃ state, RadixState.sort direction (span.passes K) ⟨live, scratch⟩
      = .ok state :=
    (RadixState.exists_sort_iff hlimit).mpr fun pair _ =>
      hasDigits_of_le span.passes_le_places pair.1
  use state.live
  constructor
  · unfold radixSort
    simp only [Pairs.ofArrays?_eq_some hvalues, dif_pos hscratchKeys, dif_pos hscratchValues]
    apply Attempt.within_eq_ok.mpr
    use state, hstate
  · apply RadixState.toList_sort hstate

/-- A sort by digits does not fail, and leaves the pairs in the order of the numbers that
their digits spell, in either direction with the pairs of one number as they stood. -/
theorem radixSort_eq_stableSort [LawfulDigitKey K]
    (hlimit : keys.size < sizeLimit) (hvalues : values.size = keys.size)
    (hscratchKeys : scratchKeys.size = keys.size)
    (hscratchValues : scratchValues.size = keys.size) (direction : Direction)
    (span : DigitSpan) :
  let rank (pair : K × V) : Nat := digitValue (span.passes K) pair.1
  let pairs := keys.toList.zip values.toList
  let sorted := direction.stableSort rank pairs
  radixSort direction span keys values scratchKeys scratchValues
      = .ok ((sorted.map Prod.fst).toArray, (sorted.map Prod.snd).toArray)
    ∧ (direction = .ascending → sorted.Pairwise fun a b => rank a ≤ rank b)
    ∧ (direction = .descending → sorted.Pairwise fun a b => rank b ≤ rank a)
    ∧ ∀ number, sorted.filter (fun pair => rank pair = number)
        = pairs.filter (fun pair => rank pair = number)
  := by
  intro rank pairs sorted
  refine ⟨?_, ?_, ?_, direction.filter_stableSort_nat rank pairs⟩
  · obtain ⟨result, hresult, hsorted⟩ :=
      exists_radixSort hlimit hvalues hscratchKeys hscratchValues direction span
    rw [hresult, show sorted = result.toList from hsorted.symm, Pairs.map_fst_toList,
      Pairs.map_snd_toList]
    rfl
  · rintro rfl
    apply Direction.pairwise_stableSort_ascending
  · rintro rfl
    apply Direction.pairwise_stableSort_descending

/-- Negative keys have the digits of large numbers, and equal keys keep their order. -/
theorem radixSort_negative_and_tied :
  radixSort .descending .low32 (#[5, -1, 256, 5] : Array Int32) #["a", "b", "c", "d"]
      #[0, 0, 0, 0] #["", "", "", ""]
    = .ok (#[-1, 256, 5, 5], #["b", "c", "a", "d"])
  := by
  have hlimit : (#[5, -1, 256, 5] : Array Int32).size < sizeLimit := by decide
  have hvalues : #["a", "b", "c", "d"].size = (#[5, -1, 256, 5] : Array Int32).size := rfl
  have hscratchKeys : (#[0, 0, 0, 0] : Array Int32).size = 4 := rfl
  have hscratchValues : #["", "", "", ""].size = 4 := rfl
  have h := radixSort_eq_stableSort hlimit hvalues hscratchKeys hscratchValues .descending .low32
  rw [h.1]
  have hsorted : Direction.descending.stableSort
      (fun pair : Int32 × String => digitValue (DigitSpan.low32.passes Int32) pair.1)
      [(5, "a"), (-1, "b"), (256, "c"), (5, "d")]
        = [(-1, "b"), (256, "c"), (5, "a"), (5, "d")] := by
    cbv
  have hzip : (#[5, -1, 256, 5] : Array Int32).toList.zip #["a", "b", "c", "d"].toList
      = [(5, "a"), (-1, "b"), (256, "c"), (5, "d")] := rfl
  rw [hzip, hsorted]
  rfl

end

end LockstepSort
