import LockstepSort.Proofs.Trace

/-!
# The number of splits

Every split takes a pivot out of the pairs that are left to be sorted, and pairs are split only
while there are more of them than a window may hold that is not split.  So there are no more splits
than there are pairs beyond that.  Where no key precedes another one there are no fewer, since each
pivot then leaves all the others on one side.
-/

namespace LockstepSort

/-- The length up to which windows are not split. -/
def Strategy.unsplitLimit (strategy : Strategy) : Nat := max strategy.radixLimit 1

theorem Strategy.action_eq_split_iff_lt {strategy : Strategy} {length : Nat} :
  strategy.action length = .split ↔ strategy.unsplitLimit < length
  := by
  rw [action_eq_split_iff, unsplitLimit, Nat.max_lt, and_comm]

/-! ### The splits of pairs -/

namespace Pairs

variable {K V : Type} [DigitKey K] {n : Nat} {strategy : Strategy} {pairs : Pairs K V n}
  {event : Event}

/-- There are at most as many splits as there are pairs beyond those that need none. -/
theorem length_splits_le (strategy : Strategy) (pairs : Pairs K V n) :
  (pairs.splits strategy).length ≤ n - strategy.unsplitLimit
  := by
  induction n, pairs using splits.induct (K := K) strategy with
  | case1 n pairs haction parted pivot hparted ihfront ihback =>
      have hlimit := Strategy.action_eq_split_iff_lt.mp haction
      have hpivot := pivot.isLt
      rw [splits_of_split haction hparted, List.length_cons, List.length_append]
      omega
  | case2 n pairs haction =>
      rw [splits_of_not_split haction]
      apply Nat.zero_le

/-- A window that is split is one of those that are too long not to be, and its pivot is in it. -/
theorem exists_of_mem_splits (h : event ∈ pairs.splits strategy) :
  ∃ length pivot, event = .split length pivot ∧ strategy.unsplitLimit < length ∧ length ≤ n
    ∧ pivot < length
  := by
  induction n, pairs using splits.induct (K := K) strategy with
  | case1 n pairs haction parted pivot hparted ihfront ihback =>
      rw [splits_of_split haction hparted, List.mem_cons, List.mem_append] at h
      obtain rfl | hfront | hback := h
      · exact ⟨n, pivot, rfl, Strategy.action_eq_split_iff_lt.mp haction, Nat.le_refl n,
          pivot.isLt⟩
      · obtain ⟨length, pivot', rfl, hlimit, hlength, hpivot⟩ := ihfront hfront
        exact ⟨length, pivot', rfl, hlimit, by omega, hpivot⟩
      · obtain ⟨length, pivot', rfl, hlimit, hlength, hpivot⟩ := ihback hback
        exact ⟨length, pivot', rfl, hlimit, by omega, hpivot⟩
  | case2 n pairs haction =>
      rw [splits_of_not_split haction] at h
      contradiction

theorem trace_eq_nil_iff (strategy : Strategy) (pairs : Pairs K V n) :
  pairs.trace strategy = [] ↔ n ≤ strategy.unsplitLimit
  := by
  rw [← Nat.not_lt, ← Strategy.action_eq_split_iff_lt]
  constructor
  · intro htrace haction
    have nonempty : 0 < n := Nat.lt_of_succ_lt (Strategy.one_lt_of_action_split haction)
    cases hparted : pairs.partition strategy.direction nonempty
    rw [trace_of_split haction hparted] at htrace
    contradiction
  · apply trace_of_not_split

/-- Pairs that are tied stay so as they are split, with all but the pivot behind it. -/
theorem Tied.partition {direction : Direction} {parted : Pairs K V n} {pivot : Fin n}
    {nonempty : 0 < n} (h : pairs.Tied direction)
    (hparted : pairs.partition direction nonempty = (parted, pivot)) :
  pivot.val = 0 ∧ (parted.back pivot).Tied direction
  := by
  obtain ⟨hpivot, -, hperm⟩ := partition_spec direction pairs nonempty
  rw [hparted] at hpivot hperm
  have htied : parted.Tied direction := h.of_subset hperm.subset
  refine ⟨htied.pivot_eq_zero hpivot, htied.of_subset ?_⟩
  rw [toList_back]
  apply List.drop_subset

/-- Pairs that are tied lose one pair with every split. -/
theorem Tied.trace (h : pairs.Tied strategy.direction) :
  pairs.trace strategy
    = (List.range (n - strategy.unsplitLimit)).map fun taken => .split (n - taken) 0
  := by
  induction n, pairs using trace.induct (K := K) strategy with
  | case1 n pairs haction parted pivot hparted ihfront ihback =>
      obtain ⟨hpivot, htied⟩ := h.partition hparted
      have hlimit := Strategy.action_eq_split_iff_lt.mp haction
      have hone := Strategy.one_lt_of_action_split haction
      have hfront : (parted.front pivot).trace strategy = [] := by
        apply (trace_eq_nil_iff _ _).mpr
        omega
      have hrange : n - strategy.unsplitLimit = n - pivot - 1 - strategy.unsplitLimit + 1 := by
        omega
      rw [trace_of_split haction hparted, if_pos (by omega), hfront, List.nil_append,
        ihback htied, hrange, List.range_succ_eq_map, List.map_cons, List.map_map, hpivot]
      congr 1
      apply List.map_congr_left
      intro taken _
      rw [Function.comp_apply, Nat.sub_zero, Nat.sub_sub, Nat.add_comm 1]
  | case2 n pairs haction =>
      have hlimit := mt Strategy.action_eq_split_iff_lt.mpr haction
      rw [trace_of_not_split haction, Nat.sub_eq_zero_of_le (Nat.le_of_not_lt hlimit)]
      rfl

end Pairs

/-! ### The splits of a run -/

section

variable {K V : Type} [DigitKey K] {n : Nat}

/-- Where no key in a window precedes another one, all splits are done before a range is sorted, so
that the whole trace is written down even if the sort is broken off. -/
theorem Run.events_of_tied {strategy : Strategy} {w : Window n} (depth : Nat) (run : Run K V n)
    (h : (run.pairs.slice w).Tied strategy.direction) :
  (Attempt.state (run.sort strategy depth w)).events.toList
    = run.events.toList ++ (run.pairs.slice w).trace strategy
  := by
  induction depth, w, run using sort.induct (K := K) strategy with
  | case1 depth w run haction | case2 depth w run haction | case3 depth w run haction =>
      have hnot : strategy.action w.length ≠ .split := by simp [haction]
      rw [run.events_sort_of_not_split depth hnot, Pairs.trace_of_not_split hnot, List.append_nil]
  | case4 depth w run haction nonempty parted pivot hparted ihshorter ihlonger =>
      obtain ⟨sides, hsides, -, hafter⟩ := split_sides hparted
      obtain ⟨hpivot, htied⟩ := h.partition hsides
      have hone := Strategy.one_lt_of_action_split haction
      have hlt : pivot.val < w.length - pivot - 1 := by omega
      obtain ⟨hshorter, hlonger⟩ := w.shorter_longer_of_lt hlt
      -- The nested call finds no pairs before the pivot.
      have hleave : strategy.action (w.shorter pivot).length = .leave := by
        apply Strategy.action_eq_leave_iff.mpr
        rw [hshorter]
        apply Nat.le_of_eq hpivot |>.trans (Nat.zero_le 1)
      have hbehind : (parted.pairs.slice (w.longer pivot)).Tied strategy.direction := by
        rw [hlonger, hafter]
        apply htied
      have hnone : (parted.pairs.slice (w.shorter pivot)).trace strategy = [] := by
        apply Pairs.trace_of_not_split
        simp [hleave]
      have hevents := ihlonger (parted.note (depth + 1) (w.shorter pivot) .left) hbehind
      rw [events_note, events_split hparted] at hevents
      rw [sort_of_split haction hparted, sort_of_leave hleave, trace_split haction hparted, hnone]
      apply hevents.trans
      simp only [Visit.event?, Option.toList, List.append_nil, List.append_assoc, List.nil_append,
        List.singleton_append]
      rfl

/-- A sort of a window that is longer than those that are not split does at least one split, and at
most one for each pair beyond them; a shorter window is not split at all.  This is so even where
the sort is broken off, which it is not if digits can be read and the scratch serves the window.
Each split is of a window that is too long not to be, around a pivot in it.  If all keys are equal,
then there are as many splits as there can be, each with its pivot at the front. -/
theorem splits_bounded (strategy : Strategy) (w : Window n) (pairs : Pairs K V n)
    (scratch : Option (Scratch K V)) :
  let attempt := (Run.start pairs scratch).sort strategy 0 w
  let splits := attempt.state.events.toList
  let limit := strategy.unsplitLimit
  (∀ [LawfulDigitKey K], n < sizeLimit → strategy.ServedBy w.length scratch →
    ∃ run, attempt = .ok run)
  ∧ (w.length ≤ limit → splits = [])
  ∧ (limit < w.length → 1 ≤ splits.length ∧ splits.length ≤ w.length - limit)
  ∧ (∀ event ∈ splits, ∃ length pivot, event = .split length pivot ∧ limit < length
    ∧ length ≤ w.length ∧ pivot < length)
  ∧ ((∀ a ∈ (pairs.slice w).keys.toList, ∀ b ∈ (pairs.slice w).keys.toList, compare a b = .eq) →
    splits = (List.range (w.length - limit)).map fun taken => .split (w.length - taken) 0)
  := by
  intro attempt splits limit
  obtain ⟨written, rest, hwritten, htrace, hrest⟩ :=
    (Run.start pairs scratch).exists_written strategy 0 w
  obtain rfl : splits = written := hwritten
  have hperm := (pairs.slice w).trace_perm_splits strategy
  have hnil := (pairs.slice w).trace_eq_nil_iff strategy
  rw [show (pairs.slice w).trace strategy = splits ++ rest from htrace] at hperm hnil
  refine ⟨?_, ?_, ?_, ?_, ?_⟩
  · intro _ hlimit hserved
    obtain ⟨run, hrun⟩ := Run.exists_sorts hlimit 0 w (.start pairs scratch) hserved
    exact ⟨run, Run.sort_eq_ok.mpr hrun⟩
  · intro hshort
    apply (List.append_eq_nil_iff.mp (hnil.mpr hshort)).1
  · intro hlong
    constructor
    · apply List.length_pos_iff.mpr
      intro hnone
      apply absurd (hnil.mp _) (Nat.not_le_of_lt hlong)
      rw [hnone, hrest hnone, List.append_nil]
    · apply Nat.le_trans _ ((pairs.slice w).length_splits_le strategy)
      rw [← hperm.length_eq, List.length_append]
      apply Nat.le_add_right
  · intro event hevent
    apply Pairs.exists_of_mem_splits (hperm.mem_iff.mp (List.mem_append_left _ hevent))
  · intro hkeys
    have htied : (pairs.slice w).Tied strategy.direction := by
      intro a ha b hb
      apply Direction.not_precedes_of_eq
      rw [← Pairs.map_fst_toList] at hkeys
      apply hkeys _ (List.mem_map_of_mem ha) _ (List.mem_map_of_mem hb)
    have hevents := (Run.start pairs scratch).events_of_tied 0 htied
    rw [← htied.trace]
    apply hevents

/-- Even with a limit of 0, of five equal keys only four become pivots, as a single pair is not
split. -/
theorem splits_of_five_equal_keys :
  let strategy : Strategy := ⟨.descending, 0, none, .full⟩
  let pairs : Pairs UInt32 String 5 := ⟨#v[7, 7, 7, 7, 7], #v["a", "b", "c", "d", "e"]⟩
  ∃ run, (Run.start pairs none).sort strategy 0 (.whole 5) = .ok run
    ∧ run.events.toList = [.split 5 0, .split 4 0, .split 3 0, .split 2 0]
  := by
  intro strategy pairs
  obtain ⟨hends, -, -, -, hequal⟩ := splits_bounded strategy (.whole 5) pairs none
  obtain ⟨run, hrun⟩ := hends (by decide) (by rintro s ⟨⟩)
  have hlist : (pairs.slice (.whole 5)).keys.toList = List.replicate 5 7 := by decide +kernel
  have hseven {key : UInt32} (hkey : key ∈ (pairs.slice (.whole 5)).keys.toList) : key = 7 := by
    rw [hlist] at hkey
    apply List.eq_of_mem_replicate hkey
  have hsplits := hequal fun a ha b hb => by
    rw [hseven ha, hseven hb]
    decide
  rw [hrun] at hsplits
  refine ⟨run, hrun, hsplits.trans ?_⟩
  decide

end

end LockstepSort
