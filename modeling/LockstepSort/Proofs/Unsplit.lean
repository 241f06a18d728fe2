import LockstepSort.Proofs.Sort

/-!
# Windows that are not split

A window that is no longer than what is sorted by digits is not split, and so is sorted
stably: by the keys if it is short enough to be sorted by insertion, and else by the number
that the digits of the keys spell.  Where the digits follow the keys, both come to the same.
-/

namespace LockstepSort

namespace Pairs

variable {K V : Type} [DigitKey K] {n : Nat} {strategy : Strategy} {pairs : Pairs K V n}

/-- Pairs that are short enough to be sorted by insertion are sorted stably by their keys. -/
theorem arranged_of_insertsAt [Std.TransOrd K]
    (hlimit : n ≤ strategy.radixLimit) (hinserts : strategy.insertsAt n) :
  pairs.arranged strategy = strategy.direction.stableSort Prod.fst pairs.toList
  := by
  by_cases hlength : n ≤ 1
  · have haction : strategy.action n = .leave := if_pos hlength
    rw [arranged_of_leave haction, Direction.stableSort_of_length_le_one]
    rwa [length_toList]
  · have haction : strategy.action n = .insertion := by
      simp only [Strategy.action, hlength, hlimit, hinserts, if_true, if_false]
    rw [arranged_of_insertion haction, toList_insertionSort]

/-- Other pairs that are not split are sorted stably by their digits. -/
theorem arranged_of_not_insertsAt
    (hlimit : n ≤ strategy.radixLimit) (hinserts : ¬ strategy.insertsAt n) :
  pairs.arranged strategy
    = strategy.direction.stableSort (fun pair => digitValue (strategy.span.passes K) pair.1)
        pairs.toList
  := by
  by_cases hlength : n ≤ 1
  · have haction : strategy.action n = .leave := if_pos hlength
    rw [arranged_of_leave haction, Direction.stableSort_of_length_le_one]
    rwa [length_toList]
  · have haction : strategy.action n = .radix :=
      Strategy.action_eq_radix_iff.mpr ⟨by omega, hlimit, hinserts⟩
    rw [arranged_of_radix haction]

/-- Pairs that are not split, with digits that follow the keys and keep their ties, are sorted
stably by their keys. -/
theorem arranged_of_follows [Std.TransOrd K]
    (hlimit : n ≤ strategy.radixLimit) (hdigits : strategy.span.Follows pairs.keys.toList)
    (hties : strategy.span.KeepsTies pairs.keys.toList) :
  pairs.arranged strategy = strategy.direction.stableSort Prod.fst pairs.toList
  := by
  by_cases hinserts : strategy.insertsAt n
  · apply arranged_of_insertsAt hlimit hinserts
  · rw [arranged_of_not_insertsAt hlimit hinserts]
    apply Direction.stableSort_congr
    intro a ha b hb
    symm
    apply hdigits.admits_eq hties (mem_keys ha) (mem_keys hb)

end Pairs

/-- A window that is not split is sorted, with scratch that serves it, unless a digit cannot be read
that it is to be sorted by. -/
theorem Run.exists_sort_iff_of_not_split {K V : Type} [DigitKey K] {n : Nat} {strategy : Strategy}
    {w : Window n} (depth : Nat) (run : Run K V n) (hlimit : n < sizeLimit)
    (haction : strategy.action w.length ≠ .split)
    (hserved : strategy.ServedBy w.length run.scratch) :
  (∃ run', run.sort strategy depth w = .ok run')
    ↔ (strategy.action w.length = .radix →
      ∀ pair ∈ (run.pairs.slice w).toList, HasDigits (strategy.span.passes K) pair.1)
  := by
  cases h : strategy.action w.length with
  | leave => simp [sort_of_leave h]
  | insertion => simp [sort_of_insertion h]
  | radix =>
      have hlength := Strategy.le_scratchRequired h
      rw [← exists_radixSort_iff hlimit fun s hs => hlength.trans (hserved s hs), sort_of_radix h]
      simp [bind_eq_ok]
  | split => apply absurd h haction

section

variable {K V : Type} [DigitKey K] {strategy : Strategy} {scratch : Option (Scratch K V)}
  {keys : Array K} {values : Array V} {offset length : Nat}

/-- A sort by insertion sorts the pairs in its window stably by their keys. -/
theorem stretchPairs_of_insertsAt [Std.TransOrd K]
    (hresult : (sortWindowWith strategy scratch keys values offset length).result = .ok ())
    (hlimit : length ≤ strategy.radixLimit) (hinserts : strategy.insertsAt length) :
  let ending := sortWindowWith strategy scratch keys values offset length
  stretchPairs ending.keys ending.values offset length
    = strategy.direction.stableSort (fun pair => pair.1) (stretchPairs keys values offset length)
  := by
  obtain ⟨hpasses, hafter⟩ := stretchPairs_of_result hresult
  apply hafter.trans
  rw [Pairs.arranged_of_insertsAt hlimit hinserts, hpasses.toList_range]

/-- A sort that neither inserts nor splits sorts the pairs in its window stably by their
digits. -/
theorem stretchPairs_of_not_insertsAt
    (hresult : (sortWindowWith strategy scratch keys values offset length).result = .ok ())
    (hlimit : length ≤ strategy.radixLimit) (hinserts : ¬ strategy.insertsAt length) :
  let ending := sortWindowWith strategy scratch keys values offset length
  stretchPairs ending.keys ending.values offset length
    = strategy.direction.stableSort (fun pair => digitValue (strategy.span.passes K) pair.1)
        (stretchPairs keys values offset length)
  := by
  obtain ⟨hpasses, hafter⟩ := stretchPairs_of_result hresult
  apply hafter.trans
  rw [Pairs.arranged_of_not_insertsAt hlimit hinserts, hpasses.toList_range]

end

/-- A sort of a window that is not split sorts its pairs stably: by their keys if they are few
enough to be sorted by insertion, and else by the number that the digits of the keys spell, as
far as they are read.  Where these numbers follow the keys, and are equal for keys that tie, all
strategies of one direction that do not split the window sort it alike. -/
theorem unsplit_windows_sorted_stably {K V : Type} [DigitKey K] [Std.TransOrd K]
    (keys : Array K) (values : Array V) (offset length : Nat) :
  (∀ (strategy : Strategy) (scratch : Option (Scratch K V)),
    let ending := sortWindowWith strategy scratch keys values offset length
    let before := stretchPairs keys values offset length
    let after := stretchPairs ending.keys ending.values offset length
    let inserts := ∃ limit, strategy.insertionLimit = some limit ∧ length ≤ limit
    ending.result = .ok () → length ≤ strategy.radixLimit →
      (inserts → after = strategy.direction.stableSort (fun pair => pair.1) before)
      ∧ (¬ inserts → after = strategy.direction.stableSort
          (fun pair => digitValue (strategy.span.passes K) pair.1) before))
  ∧ ∀ (strategy strategy' : Strategy) (scratch scratch' : Option (Scratch K V)),
    let ending := sortWindowWith strategy scratch keys values offset length
    let ending' := sortWindowWith strategy' scratch' keys values offset length
    let range := stretch keys offset length
    ending.result = .ok () → ending'.result = .ok () →
    strategy.direction = strategy'.direction →
    length ≤ strategy.radixLimit → length ≤ strategy'.radixLimit →
    strategy.span.Follows range → strategy'.span.Follows range →
    strategy.span.KeepsTies range → strategy'.span.KeepsTies range →
      ending.keys = ending'.keys ∧ ending.values = ending'.values
  := by
  constructor
  · intro strategy scratch ending before after inserts hresult hlimit
    constructor
    · intro hinserts
      apply stretchPairs_of_insertsAt hresult hlimit (Strategy.insertsAt_iff.mpr hinserts)
    · intro hinserts
      apply stretchPairs_of_not_insertsAt hresult hlimit
      apply mt Strategy.insertsAt_iff.mp hinserts
  · intro strategy strategy' scratch scratch' ending ending' range hresult hresult' hdirection
      hlimit hlimit' hdigits hdigits' hties hties'
    obtain ⟨hpasses, run, hrun, hending⟩ := exists_sorts_of_result hresult
    obtain ⟨hpasses', run', hrun', hending'⟩ := exists_sorts_of_result hresult'
    have hpairs : run.pairs = run'.pairs := by
      apply hrun.arranges.pairs_eq_of_arranged_eq hrun'.arranges rfl
      rw [show range = _ from hpasses.toList_keys_range.symm] at hdigits hdigits' hties hties'
      apply (Pairs.arranged_of_follows hlimit hdigits hties).trans
      rw [hdirection]
      symm
      apply Pairs.arranged_of_follows hlimit' hdigits' hties'
    rw [show ending = _ from hending, show ending' = _ from hending', hpairs]
    exact ⟨rfl, rfl⟩

/-- A key that 32 bits cannot hold is put behind a smaller one by insertion, and stays before it
by its digits.  Keys that the digits follow come out alike, equal ones in their old order. -/
theorem unsplit_windows_by_insertion_and_by_digits :
  let inserting : Strategy := ⟨.ascending, 3, some 3, .low32⟩
  let distributing : Strategy := ⟨.ascending, 4, none, .low32⟩
  let wide : Array UInt64 := #[4294967296, 1]
  let inserted := sortWindowWith inserting none wide #["a", "b"] 0 2
  let distributed := sortWindowWith distributing none wide #["a", "b"] 0 2
  let narrow : Array UInt32 := #[7, 3, 7]
  stretchPairs inserted.keys inserted.values 0 2 = [(1, "b"), (4294967296, "a")]
    ∧ stretchPairs distributed.keys distributed.values 0 2 = [(4294967296, "a"), (1, "b")]
    ∧ (sortWindowWith inserting none narrow #["a", "b", "c"] 0 3).values
      = (sortWindowWith distributing none narrow #["a", "b", "c"] 0 3).values
  := by
  intro inserting distributing wide inserted distributed narrow
  have hwide (strategy : Strategy) :
      (sortWindowWith strategy none wide #["a", "b"] 0 2).result = .ok () :=
    result_of_passes (by decide) ⟨rfl, by decide, by rintro s ⟨⟩, by decide⟩
  have hnarrow (strategy : Strategy) :
      (sortWindowWith strategy none narrow #["a", "b", "c"] 0 3).result = .ok () :=
    result_of_passes (by decide) ⟨rfl, by decide, by rintro s ⟨⟩, by decide⟩
  obtain ⟨hone, -⟩ := unsplit_windows_sorted_stably wide #["a", "b"] 0 2
  obtain ⟨-, hboth⟩ := unsplit_windows_sorted_stably narrow #["a", "b", "c"] 0 3
  refine ⟨?_, ?_, ?_⟩
  · obtain ⟨hinserts, -⟩ := hone inserting none (hwide inserting) (by decide)
    rw [hinserts ⟨3, rfl, by decide⟩]
    cbv
  · obtain ⟨-, hdigits⟩ := hone distributing none (hwide distributing) (by decide)
    rw [hdigits (by rintro ⟨limit, ⟨⟩, -⟩)]
    cbv
  · obtain ⟨-, hvalues⟩ := hboth inserting distributing none none (hnarrow inserting)
      (hnarrow distributing) rfl (by decide) (by decide) (DigitSpan.follows_uint32 _)
      (DigitSpan.follows_uint32 _) (DigitSpan.keepsTies_of_lawfulEq _ _)
      (DigitSpan.keepsTies_of_lawfulEq _ _)
    apply hvalues

/-- Two keys that tie stay as they are when they are sorted by insertion, and change places when
they are sorted by digits, though the digits follow the keys.  Where the scratch serves the one
strategy only, the other one does not sort at all. -/
theorem tied_keys_sorted_by_digits :
  let inserting : Strategy := ⟨.ascending, 10, some 12, .low32⟩
  let distributing : Strategy := ⟨.ascending, 10, none, .low32⟩
  let keys : Array CoarseKey := #[⟨0x70002⟩, ⟨0x70001⟩]
  let inserted := sortWindowWith inserting none keys #["a", "b"] 0 2
  let distributed := sortWindowWith distributing none keys #["a", "b"] 0 2
  let sorted := sortWindowWith inserting (some ⟨#[], #[]⟩) (#[2, 1] : Array UInt32) #["a", "b"]
    0 2
  let refused := sortWindowWith distributing (some ⟨#[], #[]⟩) (#[2, 1] : Array UInt32)
    #["a", "b"] 0 2
  DigitSpan.low32.Follows (stretch keys 0 2)
    ∧ inserted.result = .ok () ∧ distributed.result = .ok ()
    ∧ stretchPairs inserted.keys inserted.values 0 2 = [(⟨0x70002⟩, "a"), (⟨0x70001⟩, "b")]
    ∧ stretchPairs distributed.keys distributed.values 0 2
      = [(⟨0x70001⟩, "b"), (⟨0x70002⟩, "a")]
    ∧ DigitSpan.low32.Follows (stretch (#[2, 1] : Array UInt32) 0 2)
    ∧ sorted.result = .ok () ∧ sorted.keys = #[1, 2]
    ∧ refused.result = .error (.rejected (.scratchTooSmall 2 0)) ∧ refused.keys = #[2, 1]
  := by
  intro inserting distributing keys inserted distributed sorted refused
  have hresult (strategy : Strategy) :
      (sortWindowWith strategy none keys #["a", "b"] 0 2).result = .ok () :=
    result_of_passes (by decide) ⟨rfl, by decide, by rintro s ⟨⟩, by decide⟩
  refine ⟨CoarseKey.follows _, hresult _, hresult _, ?_, ?_, DigitSpan.follows_uint32 _, ?_⟩
  · apply (stretchPairs_of_insertsAt (hresult inserting) (by decide) (by decide)).trans
    cbv
  · apply (stretchPairs_of_not_insertsAt (hresult distributing) (by decide) (by decide)).trans
    cbv
  · decide +kernel

end LockstepSort
