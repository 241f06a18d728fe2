import LockstepSort.Proofs.Likeness.Run
import LockstepSort.Proofs.Sort

/-!
# Sorts of like pairs

The checks do not tell like pairs apart either.  So two sorts of columns of like pairs, with
scratch of the same capacity, end with the same log and the same result, and leave columns of
like pairs, whether or not they fail.
-/

namespace LockstepSort

/-! ### Columns and endings -/

section

variable {K K' V V' : Type} {P : K × V → K' × V' → Prop}

/-- Two columns, and two others, that hold like pairs. -/
inductive ColumnsLike (P : K × V → K' × V' → Prop) :
    Array K × Array V → Array K' × Array V' → Prop where
  | intro {n : Nat} {pairs : Pairs K V n} {pairs' : Pairs K' V' n} (h : pairs.Like P pairs') :
    ColumnsLike P (pairs.keys.toArray, pairs.values.toArray)
      (pairs'.keys.toArray, pairs'.values.toArray)

theorem ColumnsLike.eq {columns columns' : Array K × Array V}
    (h : ColumnsLike Eq columns columns') :
  columns = columns'
  := by
  cases h with
  | intro h => rw [Pairs.like_eq_iff.mp h]

/-- Two endings leave columns of like pairs, the same log and the same result. -/
structure Ending.Like (P : K × V → K' × V' → Prop) (ending : Ending K V)
    (ending' : Ending K' V') : Prop where
  columns : ColumnsLike P (ending.keys, ending.values) (ending'.keys, ending'.values)
  log : ending'.log = ending.log
  result : ending'.result = ending.result

/-- Scratch of the same capacity passes the same check. -/
theorem checkScratch_congr {strategy : Strategy} {length : Nat} {scratch : Option (Scratch K V)}
    {scratch' : Option (Scratch K' V')}
    (hcapacity : scratch'.map Scratch.capacity = scratch.map Scratch.capacity) :
  checkScratch strategy scratch' length = checkScratch strategy scratch length
  := by
  cases scratch <;> cases scratch' <;> simp_all [checkScratch]

end

section

variable {K K' V V' : Type} [DigitKey K] [DigitKey K'] {P : K × V → K' × V' → Prop} {n : Nat}
  {strategy : Strategy} {w : Window n} {offset length : Nat} {pairs : Pairs K V n}
  {pairs' : Pairs K' V' n} {scratch : Option (Scratch K V)} {scratch' : Option (Scratch K' V')}

namespace Pairs

/-- Like pairs sorted in a window are left alike. -/
theorem Like.sortWindow (hP : Likeness P) (h : pairs.Like P pairs')
    (hserved : strategy.ServedBy w.length scratch)
    (hserved' : strategy.ServedBy w.length scratch') :
  (pairs.sortWindow strategy w scratch).Like P (pairs'.sortWindow strategy w scratch')
  := by
  have hstart : (Run.start pairs scratch).Like P (Run.start pairs' scratch') := ⟨h, rfl⟩
  have hsort := hstart.sort hP 0 hserved hserved'
  have hstate := hsort.state.like
  refine ⟨.intro hstate.pairs, ?_, ?_⟩
  · simp only [Pairs.sortWindow, Run.events, hstate.visits]
  · simp only [Pairs.sortWindow, hsort.result]

/-! ### Requests for pairs -/

/-- The window of a request for pairs, once the checks have passed. -/
def grant (strategy : Strategy) (scratch : Option (Scratch K V)) (offset length : Nat)
    (pairs : Pairs K V n) : Except Failure (Window n) := do
  let w ← (windowAt offset length n).mapError .rejected
  (checkScratch strategy scratch length).mapError .rejected
  (checkSigns (pairs.slice w).keys).mapError .faulted
  return w

/-- A sort of columns that pair up is one of their pairs. -/
theorem sortWindowWith_toArray (pairs : Pairs K V n) :
  sortWindowWith strategy scratch pairs.keys.toArray pairs.values.toArray offset length
    = match pairs.grant strategy scratch offset length with
      | .ok w => pairs.sortWindow strategy w scratch
      | .error failure =>
        ⟨pairs.keys.toArray, pairs.values.toArray, scratch, #[], .error failure⟩
  := by
  obtain ⟨⟨keys, rfl⟩, ⟨values, hvalues⟩⟩ := pairs
  unfold sortWindowWith checked grant
  rw [pairUp_of_paired hvalues.symm]
  cases windowAt offset length keys.size with
  | error => rfl
  | ok w =>
      cases checkScratch strategy scratch length with
      | error => rfl
      | ok =>
          simp only [Except.mapError, bind, Except.bind, ofArrays]
          cases checkSigns (slice ⟨⟨keys, rfl⟩, ⟨values, hvalues⟩⟩ w).keys <;> rfl

theorem served_of_grant (h : pairs.grant strategy scratch offset length = .ok w) :
  strategy.ServedBy w.length scratch
  := by
  obtain ⟨w', hw, h⟩ := bind_eq_ok.mp h
  obtain ⟨_, hscratch, h⟩ := bind_eq_ok.mp h
  obtain ⟨_, _, h⟩ := bind_eq_ok.mp h
  obtain rfl := Except.ok.inj h
  rw [mapError_eq_ok] at hw hscratch
  rw [(eq_of_windowAt hw).2]
  apply served_of_checkScratch hscratch

theorem Like.checkSigns (hP : Likeness P) (h : pairs.Like P pairs') :
  checkSigns pairs'.keys = checkSigns pairs.keys
  := by
  have hsign (i : Nat) (hi : i < n) : DigitKey.isNegative pairs'.keys[i]
      = DigitKey.isNegative pairs.keys[i] := hP.isNegative (h ⟨i, hi⟩)
  have hany : pairs'.keys.any DigitKey.isNegative = pairs.keys.any DigitKey.isNegative := by
    rw [Bool.eq_iff_iff]
    simp only [Vector.any_eq_true, hsign]
  unfold LockstepSort.checkSigns
  rw [hany]

/-- Requests for like pairs pass the same checks. -/
theorem Like.grant (hP : Likeness P) (h : pairs.Like P pairs')
    (hcapacity : scratch'.map Scratch.capacity = scratch.map Scratch.capacity) :
  pairs'.grant strategy scratch' offset length = pairs.grant strategy scratch offset length
  := by
  unfold Pairs.grant
  rw [checkScratch_congr hcapacity]
  congr 1
  funext w
  rw [(h.slice w).checkSigns hP]

/-- Sorts of columns of like pairs, with scratch of the same capacity, end alike. -/
theorem Like.sortWindowWith (hP : Likeness P) (h : pairs.Like P pairs')
    (hcapacity : scratch'.map Scratch.capacity = scratch.map Scratch.capacity) :
  (sortWindowWith strategy scratch pairs.keys.toArray pairs.values.toArray offset length).Like P
    (sortWindowWith strategy scratch' pairs'.keys.toArray pairs'.values.toArray offset length)
  := by
  rw [sortWindowWith_toArray, sortWindowWith_toArray, h.grant hP hcapacity]
  cases hgrant : pairs.grant strategy scratch offset length with
  | error failure => exact ⟨.intro h, rfl, rfl⟩
  | ok w =>
      have hserved := served_of_grant hgrant
      rw [← h.grant hP hcapacity] at hgrant
      apply h.sortWindow hP hserved (served_of_grant hgrant)

/-! ### Columns sorted by digits -/

/-- A sort by digits of columns that pair up is one of their pairs. -/
theorem radixSort_toArray (pairs : Pairs K V n) (direction : Direction) (span : DigitSpan)
    (scratchKeys : Array K) (scratchValues : Array V) :
  radixSort direction span pairs.keys.toArray pairs.values.toArray scratchKeys scratchValues
    = if hkeys : scratchKeys.size = n then
        if hvalues : scratchValues.size = n then
          Attempt.within (fun state => (state.live.keys.toArray, state.live.values.toArray))
            (RadixState.sort direction (span.passes K)
              ⟨pairs, ⟨⟨scratchKeys, hkeys⟩, ⟨scratchValues, hvalues⟩⟩⟩)
        else
          .error ⟨.unequalLengths .scratchValues scratchValues.size n,
            (pairs.keys.toArray, pairs.values.toArray)⟩
      else
        .error ⟨.unequalLengths .scratchKeys scratchKeys.size n,
          (pairs.keys.toArray, pairs.values.toArray)⟩
  := by
  obtain ⟨⟨keys, rfl⟩, ⟨values, hvalues⟩⟩ := pairs
  unfold radixSort
  rw [ofArrays?_eq_some hvalues]
  rfl

/-- Sorts by digits of columns of like pairs, with scratch columns of the same lengths, end
alike. -/
theorem Like.radixSort (hP : Likeness P) (h : pairs.Like P pairs') (direction : Direction)
    (span : DigitSpan) {scratchKeys : Array K} {scratchKeys' : Array K'}
    {scratchValues : Array V} {scratchValues' : Array V'}
    (hkeys : scratchKeys'.size = scratchKeys.size)
    (hvalues : scratchValues'.size = scratchValues.size) :
  Attempt.Both (ColumnsLike P) (ColumnsLike P)
    (radixSort direction span pairs.keys.toArray pairs.values.toArray scratchKeys scratchValues)
    (radixSort direction span pairs'.keys.toArray pairs'.values.toArray scratchKeys'
      scratchValues')
  := by
  rw [radixSort_toArray, radixSort_toArray, hP.passes]
  simp only [hkeys, hvalues]
  split
  · split
    · apply (RadixState.both_sort hP span.passes_le_places h direction).within <;>
        exact fun _ _ hlive => .intro hlive
    · apply Attempt.Both.error (.intro h)
  · apply Attempt.Both.error (.intro h)

end Pairs

end

end LockstepSort
