import LockstepSort.Proofs.Run
import LockstepSort.Sort

/-!
# What a sort ends with

The checks decide whether a sort is carried out, and the first one that fails decides what is
reported.  A sort that is not carried out leaves everything as it is; one that is carried out
comes to its end.
-/

namespace LockstepSort

/-- The elements of a column at the positions of a window. -/
def stretch {α : Type} (column : Array α) (offset length : Nat) : List α :=
  (column.toList.drop offset).take length

/-- The pairs of two columns at the positions of a window. -/
def stretchPairs {K V : Type} (keys : Array K) (values : Array V) (offset length : Nat) :
    List (K × V) :=
  (stretch keys offset length).zip (stretch values offset length)

section

variable {K V : Type} {strategy : Strategy} {scratch : Option (Scratch K V)} {keys : Array K}
  {values : Array V} {offset length n : Nat}

/-! ### The checks -/

theorem pairUp_of_paired (h : keys.size = values.size) :
  pairUp keys values = .ok (.ofArrays keys values h.symm)
  := by
  rw [pairUp, Pairs.ofArrays?_eq_some h.symm]

theorem pairUp_of_unpaired (h : ¬ keys.size = values.size) :
  pairUp keys values = .error (.lengthMismatch keys.size values.size)
  := by
  rw [pairUp, Pairs.ofArrays?_eq_none (Ne.symm h)]

theorem windowAt_of_fits (hlimit : n < sizeLimit) (h : offset + length ≤ n) :
  windowAt offset length n = .ok ⟨offset, length, h⟩
  := by
  have hof : Window.of? offset length n = some ⟨offset, length, h⟩ := by
    unfold Window.of? Window.stop?
    rw [if_pos (by omega)]
    apply dif_pos h
  rw [windowAt, hof]

theorem windowAt_of_leaves (hlimit : n < sizeLimit) (h : ¬ offset + length ≤ n) :
  windowAt offset length n = .error (.rangeOutOfBounds offset length n)
  := by
  have hof := (Window.of?_eq_none_iff hlimit).mpr (Nat.lt_of_not_le h)
  rw [windowAt, hof]

theorem checkScratch_of_served (h : strategy.ServedBy length scratch) :
  checkScratch strategy scratch length = .ok ()
  := by
  cases scratch with
  | none => rfl
  | some s =>
      rw [checkScratch, if_neg]
      apply Nat.not_lt.mpr (h s rfl)

theorem checkScratch_of_small
    {s : Scratch K V} (h : s.capacity < strategy.scratchRequired length) :
  checkScratch strategy (some s) length
    = .error (.scratchTooSmall (strategy.scratchRequired length) s.capacity)
  := by
  rw [checkScratch, if_pos h]

theorem eq_of_windowAt {w : Window n} (h : windowAt offset length n = .ok w) :
  w.offset = offset ∧ w.length = length
  := by
  unfold windowAt at h
  split at h
  next w' hof =>
      obtain rfl := Except.ok.inj h
      apply Window.of?_eq_some hof
  next => contradiction

theorem served_of_checkScratch (h : checkScratch strategy scratch length = .ok ()) :
  strategy.ServedBy length scratch
  := by
  by_contra hserved
  obtain ⟨s, rfl, hsmall⟩ := Strategy.exists_of_not_servedBy hserved
  rw [checkScratch_of_small hsmall] at h
  contradiction

theorem toList_keys_slice (pairs : Pairs K V n) (w : Window n) :
  (pairs.slice w).keys.toList = stretch pairs.keys.toArray w.offset w.length
  := by
  rw [← Pairs.map_fst_toList, Pairs.toList_slice, List.map_take, List.map_drop,
    Pairs.map_fst_toList]
  rfl

theorem toList_slice_eq_stretchPairs (pairs : Pairs K V n) (w : Window n) :
  (pairs.slice w).toList
    = stretchPairs pairs.keys.toArray pairs.values.toArray w.offset w.length
  := by
  rw [Pairs.toList_slice, Pairs.toList, stretchPairs]
  simp only [stretch, List.zip, List.take_zipWith, List.drop_zipWith]
  rfl

variable [DigitKey K]

theorem checkSigns_of_negative {column : Vector K n}
    (h : ∃ key ∈ column.toList, DigitKey.isNegative key) :
  checkSigns column = .error .negativeKeys
  := by
  rw [checkSigns, if_pos]
  simpa [Vector.any_eq_true', Vector.mem_toList_iff] using h

theorem checkSigns_of_not_negative {column : Vector K n}
    (h : ¬ ∃ key ∈ column.toList, DigitKey.isNegative key) :
  checkSigns column = .ok ()
  := by
  rw [checkSigns, if_neg]
  simpa [Vector.any_eq_true'] using h

/-- What is demanded of a request before it is carried out. -/
structure Passes (strategy : Strategy) (scratch : Option (Scratch K V)) (keys : Array K)
    (values : Array V) (offset length : Nat) : Prop where
  paired : keys.size = values.size
  fits : offset + length ≤ keys.size
  served : strategy.ServedBy length scratch
  signs : ¬ ∃ key ∈ stretch keys offset length, DigitKey.isNegative key

/-- The pairs of a request. -/
def Passes.pairs (h : Passes strategy scratch keys values offset length) :
    Pairs K V keys.size :=
  .ofArrays keys values h.paired.symm

/-- The window of a request. -/
def Passes.window (h : Passes strategy scratch keys values offset length) :
    Window keys.size :=
  ⟨offset, length, h.fits⟩

/-- The pairs of a request in its window. -/
def Passes.range (h : Passes strategy scratch keys values offset length) : Pairs K V length :=
  h.pairs.slice h.window

theorem Passes.toList_range (h : Passes strategy scratch keys values offset length) :
  h.range.toList = stretchPairs keys values offset length
  := toList_slice_eq_stretchPairs h.pairs h.window

theorem Passes.toList_keys_range (h : Passes strategy scratch keys values offset length) :
  h.range.keys.toList = stretch keys offset length
  := toList_keys_slice h.pairs h.window

theorem checked_of_unpaired (hpaired : ¬ keys.size = values.size) :
  checked strategy scratch keys values offset length
    = .error (.rejected (.lengthMismatch keys.size values.size))
  := by
  rw [checked, pairUp_of_unpaired hpaired]
  rfl

theorem checked_of_leaves
    (hlimit : keys.size < sizeLimit) (hpaired : keys.size = values.size)
    (hfits : ¬ offset + length ≤ keys.size) :
  checked strategy scratch keys values offset length
    = .error (.rejected (.rangeOutOfBounds offset length keys.size))
  := by
  rw [checked, pairUp_of_paired hpaired, windowAt_of_leaves hlimit hfits]
  rfl

theorem checked_of_small
    {s : Scratch K V} (hlimit : keys.size < sizeLimit) (hpaired : keys.size = values.size)
    (hfits : offset + length ≤ keys.size)
    (hsmall : s.capacity < strategy.scratchRequired length) :
  checked strategy (some s) keys values offset length
    = .error (.rejected (.scratchTooSmall (strategy.scratchRequired length) s.capacity))
  := by
  rw [checked, pairUp_of_paired hpaired, windowAt_of_fits hlimit hfits,
    checkScratch_of_small hsmall]
  rfl

theorem checked_of_negative
    (hlimit : keys.size < sizeLimit) (hpaired : keys.size = values.size)
    (hfits : offset + length ≤ keys.size) (hserved : strategy.ServedBy length scratch)
    (hsigns : ∃ key ∈ stretch keys offset length, DigitKey.isNegative key) :
  checked strategy scratch keys values offset length = .error (.faulted .negativeKeys)
  := by
  rw [checked, pairUp_of_paired hpaired, windowAt_of_fits hlimit hfits,
    checkScratch_of_served hserved]
  simp only [Except.mapError, bind, Except.bind]
  rw [checkSigns_of_negative]
  rw [toList_keys_slice]
  apply hsigns

/-- A request passes the checks if its columns pair up, its window lies in them, the scratch
serves it and no key in it is negative. -/
theorem checked_of_passes (hlimit : keys.size < sizeLimit)
    (h : Passes strategy scratch keys values offset length) :
  checked strategy scratch keys values offset length = .ok (h.pairs, h.window)
  := by
  rw [checked, pairUp_of_paired h.paired, windowAt_of_fits hlimit h.fits,
    checkScratch_of_served h.served]
  simp only [Except.mapError, bind, Except.bind]
  rw [checkSigns_of_not_negative]
  · rfl
  · rw [toList_keys_slice]
    apply h.signs

/-- Only what is demanded passes the checks. -/
theorem exists_passes
    {request : Pairs K V keys.size × Window keys.size}
    (h : checked strategy scratch keys values offset length = .ok request) :
  ∃ hpasses : Passes strategy scratch keys values offset length,
    request = (hpasses.pairs, hpasses.window)
  := by
  obtain ⟨pairs, hpairs, h⟩ := bind_eq_ok.mp h
  obtain ⟨w, hw, h⟩ := bind_eq_ok.mp h
  obtain ⟨_, hscratch, h⟩ := bind_eq_ok.mp h
  obtain ⟨_, hsigns, h⟩ := bind_eq_ok.mp h
  obtain rfl := Except.ok.inj h
  rw [mapError_eq_ok] at hpairs hw hscratch hsigns
  obtain ⟨rfl, rfl⟩ := eq_of_windowAt hw
  by_cases hpaired : keys.size = values.size
  · rw [pairUp_of_paired hpaired] at hpairs
    obtain rfl := Except.ok.inj hpairs
    use ⟨hpaired, w.fits, served_of_checkScratch hscratch, ?_⟩
    · rfl
    · intro hnegative
      rw [checkSigns_of_negative] at hsigns
      · contradiction
      · rw [toList_keys_slice]
        apply hnegative
  · rw [pairUp_of_unpaired hpaired] at hpairs
    contradiction

/-- The first check that fails decides why a request is turned down. -/
theorem checked_eq_error (hlimit : keys.size < sizeLimit) {failure : Failure} :
  let paired := keys.size = values.size
  let fits := offset + length ≤ keys.size
  let served := strategy.ServedBy length scratch
  let negative := ∃ key ∈ stretch keys offset length, DigitKey.isNegative key
  checked strategy scratch keys values offset length = .error failure
    ↔ ¬ paired ∧ failure = .rejected (.lengthMismatch keys.size values.size)
      ∨ paired ∧ ¬ fits ∧ failure = .rejected (.rangeOutOfBounds offset length keys.size)
      ∨ paired ∧ fits ∧ ¬ served ∧ (∃ s ∈ scratch, failure
          = .rejected (.scratchTooSmall (strategy.scratchRequired length) s.capacity))
      ∨ paired ∧ fits ∧ served ∧ negative ∧ failure = .faulted .negativeKeys
  := by
  intro paired fits served negative
  by_cases hpaired : paired
  · by_cases hfits : fits
    · by_cases hserved : served
      · by_cases hnegative : negative
        · rw [checked_of_negative hlimit hpaired hfits hserved hnegative]
          simp [hpaired, hfits, hserved, hnegative, eq_comm]
        · rw [checked_of_passes hlimit ⟨hpaired, hfits, hserved, hnegative⟩]
          simp [hpaired, hfits, hserved, hnegative]
      · obtain ⟨s, rfl, hsmall⟩ := Strategy.exists_of_not_servedBy hserved
        rw [checked_of_small hlimit hpaired hfits hsmall]
        simp [hpaired, hfits, hserved, eq_comm]
    · rw [checked_of_leaves hlimit hpaired hfits]
      simp [hpaired, hfits, eq_comm]
  · rw [checked_of_unpaired hpaired]
    simp [hpaired, eq_comm]

/-! ### Sorts -/

/-- A request that is turned down leaves everything as it is, and writes nothing to the
log. -/
theorem sortWindowWith_of_error {failure : Failure}
    (h : checked strategy scratch keys values offset length = .error failure) :
  sortWindowWith strategy scratch keys values offset length
    = ⟨keys, values, scratch, #[], .error failure⟩
  := by
  rw [sortWindowWith, h]

theorem sortWindowWith_of_checked
    {pairs : Pairs K V keys.size} {w : Window keys.size}
    (h : checked strategy scratch keys values offset length = .ok (pairs, w)) :
  sortWindowWith strategy scratch keys values offset length = pairs.sortWindow strategy w scratch
  := by
  rw [sortWindowWith, h]

/-- A sort of pairs does not fail if its run comes to its end. -/
theorem Pairs.result_sortWindow_iff {pairs : Pairs K V n} {w : Window n} :
  (pairs.sortWindow strategy w scratch).result = .ok ()
    ↔ ∃ run, (Run.start pairs scratch).sort strategy 0 w = .ok run
  := by
  unfold sortWindow
  cases (Run.start pairs scratch).sort strategy 0 w with
  | ok run => exact ⟨fun _ => ⟨run, rfl⟩, fun _ => rfl⟩
  | error breakdown =>
      constructor
      · intro h
        cases h
      · rintro ⟨run, ⟨⟩⟩

/-- A sort leaves its scratch as large as it is, whether or not it fails. -/
theorem sortWindowWith_sizes :
  (sortWindowWith strategy scratch keys values offset length).scratch.map Scratch.sizes
    = scratch.map Scratch.sizes
  := by
  cases h : checked strategy scratch keys values offset length with
  | error failure => rw [sortWindowWith_of_error h]
  | ok request =>
      rw [sortWindowWith_of_checked h]
      apply Run.scratchSizes_sort

/-- A sort does not change what its scratch can serve. -/
theorem sortWindowWith_capacity :
  (sortWindowWith strategy scratch keys values offset length).scratch.map Scratch.capacity
    = scratch.map Scratch.capacity
  := Scratch.map_capacity_of_sizes sortWindowWith_sizes

/-- What a run leaves behind is what the sort ends with. -/
theorem sortWindowWith_of_sorts
    {pairs : Pairs K V keys.size} {w : Window keys.size} {run : Run K V keys.size}
    (h : checked strategy scratch keys values offset length = .ok (pairs, w))
    (hrun : Run.Sorts strategy 0 w (Run.start pairs scratch) run) :
  sortWindowWith strategy scratch keys values offset length
    = ⟨run.pairs.keys.toArray, run.pairs.values.toArray, run.scratch,
        #[.started w.length strategy] ++ run.events, .ok ()⟩
  := by
  simp only [sortWindowWith, h, Pairs.sortWindow, Run.sort_eq_ok.mpr hrun]
  rfl

/-- A sort that does not fail has passed the checks and come to its end. -/
theorem exists_sorts_of_result
    (h : (sortWindowWith strategy scratch keys values offset length).result = .ok ()) :
  ∃ (hpasses : Passes strategy scratch keys values offset length) (run : Run K V keys.size),
    Run.Sorts strategy 0 hpasses.window (Run.start hpasses.pairs scratch) run
    ∧ sortWindowWith strategy scratch keys values offset length
      = ⟨run.pairs.keys.toArray, run.pairs.values.toArray, run.scratch,
          #[.started length strategy] ++ run.events, .ok ()⟩
  := by
  cases hchecked : checked strategy scratch keys values offset length with
  | error failure =>
      rw [sortWindowWith_of_error hchecked] at h
      contradiction
  | ok request =>
      obtain ⟨hpasses, rfl⟩ := exists_passes hchecked
      simp only [sortWindowWith, hchecked, Pairs.sortWindow] at h
      cases hsort : (Run.start hpasses.pairs scratch).sort strategy 0 hpasses.window with
      | error breakdown =>
          rw [hsort] at h
          contradiction
      | ok run =>
          have hrun := Run.sort_eq_ok.mp hsort
          exact ⟨hpasses, run, hrun, sortWindowWith_of_sorts hchecked hrun⟩

/-- A sort that does not fail leaves the columns as long as they were. -/
theorem sizes_of_result
    (h : (sortWindowWith strategy scratch keys values offset length).result = .ok ()) :
  let ending := sortWindowWith strategy scratch keys values offset length
  ending.keys.size = keys.size ∧ ending.values.size = values.size
  := by
  intro ending
  obtain ⟨hpasses, run, -, hending⟩ := exists_sorts_of_result h
  rw [show ending = _ from hending]
  exact ⟨run.pairs.keys.size_toArray, run.pairs.values.size_toArray.trans hpasses.paired⟩

/-- A sort that does not fail leaves the pairs in its window in their arrangement. -/
theorem stretchPairs_of_result
    (h : (sortWindowWith strategy scratch keys values offset length).result = .ok ()) :
  ∃ hpasses : Passes strategy scratch keys values offset length,
    stretchPairs (sortWindowWith strategy scratch keys values offset length).keys
        (sortWindowWith strategy scratch keys values offset length).values offset length
      = hpasses.range.arranged strategy
  := by
  obtain ⟨hpasses, run, hrun, hending⟩ := exists_sorts_of_result h
  use hpasses
  rw [hending]
  apply Eq.trans _ hrun.arranges.toList_slice
  symm
  apply toList_slice_eq_stretchPairs run.pairs hpasses.window

/-- The pairs in the window are left in their arrangement, and the others where they are. -/
theorem Passes.exists_toList
    (h : Passes strategy scratch keys values offset length) {run : Run K V keys.size}
    (hrun : Run.Sorts strategy 0 h.window (Run.start h.pairs scratch) run) :
  ∃ before behind, before.length = offset
    ∧ h.pairs.toList = before ++ (h.pairs.slice h.window).toList ++ behind
    ∧ run.pairs.toList = before ++ (h.pairs.slice h.window).arranged strategy ++ behind
  := by
  obtain ⟨before, behind, hlist, hbefore⟩ := h.pairs.exists_toList_eq_slice h.window
  exact ⟨before, behind, hbefore, hlist, hrun.arranges before behind _ hlist hbefore⟩

/-- A request that passes the checks is carried out to its end. -/
theorem result_of_passes [LawfulDigitKey K] (hlimit : keys.size < sizeLimit)
    (h : Passes strategy scratch keys values offset length) :
  (sortWindowWith strategy scratch keys values offset length).result = .ok ()
  := by
  obtain ⟨run, hrun⟩ :=
    Run.exists_sorts hlimit 0 h.window (Run.start h.pairs scratch) h.served
  rw [sortWindowWith_of_sorts (checked_of_passes hlimit h) hrun]

/-- A sort fails exactly when one of the checks does. -/
theorem result_eq_error [LawfulDigitKey K] (hlimit : keys.size < sizeLimit)
    {failure : Failure} :
  (sortWindowWith strategy scratch keys values offset length).result = .error failure
    ↔ checked strategy scratch keys values offset length = .error failure
  := by
  constructor
  · intro h
    cases hchecked : checked strategy scratch keys values offset length with
    | error failure' =>
        rw [sortWindowWith_of_error hchecked] at h
        rw [Except.error.inj h]
    | ok request =>
        obtain ⟨hpasses, -⟩ := exists_passes hchecked
        rw [result_of_passes hlimit hpasses] at h
        contradiction
  · intro h
    rw [sortWindowWith_of_error h]

/-- A sort reports the first of the checks that fails, and then leaves everything as it is
and writes nothing to the log.  If none fails, it does not fail either. -/
theorem sortWindowWith_outcome [LawfulDigitKey K]
    (hlimit : keys.size < sizeLimit) (strategy : Strategy) (scratch : Option (Scratch K V))
    (values : Array V) (offset length : Nat) :
  let ending := sortWindowWith strategy scratch keys values offset length
  let paired := keys.size = values.size
  let fits := offset + length ≤ keys.size
  let required := strategy.scratchRequired length
  let served := ∀ s ∈ scratch, required ≤ s.capacity
  let negative := ∃ key ∈ stretch keys offset length, DigitKey.isNegative key
  (∀ failure, ending.result = .error failure
    ↔ ¬ paired ∧ failure = .rejected (.lengthMismatch keys.size values.size)
      ∨ paired ∧ ¬ fits ∧ failure = .rejected (.rangeOutOfBounds offset length keys.size)
      ∨ paired ∧ fits ∧ ¬ served
          ∧ (∃ s ∈ scratch, failure = .rejected (.scratchTooSmall required s.capacity))
      ∨ paired ∧ fits ∧ served ∧ negative ∧ failure = .faulted .negativeKeys)
  ∧ (ending.result = .ok () ↔ paired ∧ fits ∧ served ∧ ¬ negative)
  ∧ ∀ failure, ending.result = .error failure
      → ending = ⟨keys, values, scratch, #[], .error failure⟩
  := by
  intro ending paired fits required served negative
  refine ⟨?_, ?_, ?_⟩
  · intro failure
    apply (result_eq_error hlimit).trans (checked_eq_error hlimit)
  · constructor
    · intro h
      obtain ⟨hpasses, -⟩ := exists_sorts_of_result h
      exact ⟨hpasses.paired, hpasses.fits, hpasses.served, hpasses.signs⟩
    · rintro ⟨hpaired, hfits, hserved, hsigns⟩
      apply result_of_passes hlimit ⟨hpaired, hfits, hserved, hsigns⟩
  · intro failure h
    apply sortWindowWith_of_error ((result_eq_error hlimit).mp h)

/-- Negative keys are refused in the window, and do not matter outside it. -/
theorem outcome_of_negative_key :
  (sortWindowWith (.forKeys Int32 .ascending) none (#[-1, 3, 2] : Array Int32)
      #["a", "b", "c"] 1 2).result = .ok ()
    ∧ sortWindowWith (.forKeys Int32 .ascending) none (#[-1, 3, 2] : Array Int32)
        #["a", "b", "c"] 0 2
      = ⟨#[-1, 3, 2], #["a", "b", "c"], none, #[], .error (.faulted .negativeKeys)⟩
  := by
  have hlimit : (#[-1, 3, 2] : Array Int32).size < sizeLimit := by decide
  constructor
  · obtain ⟨-, hok, -⟩ := sortWindowWith_outcome hlimit (.forKeys Int32 .ascending) none
      #["a", "b", "c"] 1 2
    apply hok.mpr
    exact ⟨rfl, by decide, by rintro s ⟨⟩, by decide⟩
  · obtain ⟨herror, -, hunchanged⟩ := sortWindowWith_outcome hlimit
      (.forKeys Int32 .ascending) none #["a", "b", "c"] 0 2
    apply hunchanged
    apply (herror _).mpr
    right
    right
    right
    exact ⟨rfl, by decide, by rintro s ⟨⟩, by decide, rfl⟩

end

end LockstepSort
