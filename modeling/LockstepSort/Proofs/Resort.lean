import LockstepSort.Proofs.Call
import LockstepSort.Proofs.Order
import LockstepSort.Proofs.Unsplit

/-!
# Sorting what is in order

A sort of keys that are in order moves pairs only to where a key stands that ties with theirs,
and so leaves the keys as they are if only equal keys tie.  Pairs are steady if they are not
split, or are parted around the pivot that is chosen as they stand, with steady pairs before and
behind it.  Where the pairs in a window are in order, and their digits keep the ties, a sort
leaves them where they are if they are steady, and only then, unless some of them are alike.
-/

namespace LockstepSort

namespace Pairs

variable {K V : Type} [DigitKey K] {n : Nat} {strategy : Strategy} {pairs : Pairs K V n}

/-- Pairs that are not split, or are parted around the pivot that is chosen as they stand, with
steady pairs before and behind it. -/
inductive Steady (strategy : Strategy) : {n : Nat} → Pairs K V n → Prop where
  | unsplit {n : Nat} {pairs : Pairs K V n} (h : strategy.action n ≠ .split) :
    Steady strategy pairs
  | split {n : Nat} {pairs : Pairs K V n} {nonempty : 0 < n} (h : strategy.action n = .split)
      (hparted : Parted strategy.direction pairs (pairs.pivotPosition nonempty))
      (hfront : Steady strategy (pairs.front (pairs.pivotPosition nonempty)))
      (hback : Steady strategy (pairs.back (pairs.pivotPosition nonempty))) :
    Steady strategy pairs

/-- Pairs that are in order and not split are left as they are. -/
theorem arranged_of_not_split [Std.TransOrd K] (h : strategy.action n ≠ .split)
    (hdigits : strategy.span.Follows (pairs.toList.map Prod.fst))
    (hties : strategy.span.KeepsTies (pairs.toList.map Prod.fst))
    (hordered : pairs.toList.Pairwise fun a b => strategy.direction.admits a.1 b.1) :
  pairs.arranged strategy = pairs.toList
  := by
  by_cases hlength : n ≤ 1
  · apply arranged_of_leave (Strategy.action_eq_leave_iff.mpr hlength)
  · rw [ne_eq, Strategy.action_eq_split_iff] at h
    rw [map_fst_toList] at hdigits hties
    rw [arranged_of_follows (by omega) hdigits hties]
    apply Direction.stableSort_of_pairwise hordered

/-- Steady pairs that are in order are left as they are. -/
theorem Steady.arranged_eq [Std.TransOrd K] (h : Steady strategy pairs)
    (hdigits : strategy.span.Follows (pairs.toList.map Prod.fst))
    (hties : strategy.span.KeepsTies (pairs.toList.map Prod.fst))
    (hordered : pairs.toList.Pairwise fun a b => strategy.direction.admits a.1 b.1) :
  pairs.arranged strategy = pairs.toList
  := by
  induction h with
  | unsplit haction => apply arranged_of_not_split haction hdigits hties hordered
  | @split _ pairs nonempty haction hparted _ _ ihfront ihback =>
      have hlist := pairs.toList_eq_front_back (pairs.pivotPosition nonempty)
      rw [arranged_of_split haction (partition_of_parted hparted), hlist]
      rw [hlist] at hordered hdigits hties
      obtain ⟨hfront, hrest, -⟩ := List.pairwise_append.mp hordered
      rw [ihfront (hdigits.subset _) (hties.subset _) hfront,
        ihback (hdigits.subset _) (hties.subset _) hrest.of_cons]
      all_goals simp

/-- Pairs of which no two are alike are steady, if they are left as they are. -/
theorem steady_of_arranged_eq (hnodup : pairs.toList.Nodup)
    (h : pairs.arranged strategy = pairs.toList) :
  Steady strategy pairs
  := by
  induction n, pairs using arranged.induct (K := K) strategy with
  | case1 n pairs haction | case2 n pairs haction | case3 n pairs haction =>
      apply Steady.unsplit
      simp [haction]
  | case4 n pairs haction parted pivot hpartition ihfront ihback =>
      have nonempty := Nat.lt_of_succ_lt (Strategy.one_lt_of_action_split haction)
      obtain ⟨hparts, -, -⟩ := partition_spec strategy.direction pairs nonempty
      have hget := get_partition strategy.direction pairs nonempty
      rw [hpartition] at hparts hget
      rw [arranged_of_split haction hpartition] at h
      have hparted : Parted strategy.direction pairs pivot :=
        hparts.of_perm h.symm (arranged_perm _ _) (arranged_perm _ _)
      have hlist := pairs.toList_eq_front_back pivot
      rw [hlist] at h
      obtain ⟨hfront, hrest⟩ := List.append_inj h (by simp)
      obtain ⟨hpivot, hback⟩ := List.cons.inj hrest
      -- The pair that is put at the pivot was chosen there, as it stands nowhere else.
      obtain rfl := get_injective hnodup (hpivot.symm.trans hget)
      rw [partition_of_parted hparted] at hpartition
      obtain ⟨rfl, -⟩ := Prod.mk.inj hpartition
      rw [hlist] at hnodup
      obtain ⟨hnodupFront, hnodupRest, -⟩ := List.nodup_append.mp hnodup
      apply Steady.split haction hparted
      · apply ihfront hnodupFront hfront
      · apply ihback hnodupRest.of_cons hback

/-- Pairs in order of which no two keys tie are parted around each of them. -/
theorem parted_of_untied [Std.TransOrd K] {direction : Direction}
    (huntied : pairs.toList.Pairwise fun a b => compare a.1 b.1 ≠ .eq)
    (hordered : pairs.toList.Pairwise fun a b => direction.admits a.1 b.1) (pivot : Fin n) :
  Parted direction pairs pivot
  := by
  rw [toList_eq_front_back pairs pivot] at huntied hordered
  obtain ⟨-, hrest, hacross⟩ := List.pairwise_append.mp hordered
  obtain ⟨-, -, hdiffer⟩ := List.pairwise_append.mp huntied
  apply parted_iff.mpr
  constructor
  · intro pair hpair
    by_contra hnot
    have hback : direction.admits (pairs.get pivot).1 pair.1 := by
      simpa [Direction.admits] using hnot
    apply hdiffer pair hpair _ List.mem_cons_self
    apply Direction.compare_of_admits (hacross pair hpair _ List.mem_cons_self) hback
  · intro pair hpair
    have hadmits := List.rel_of_pairwise_cons hrest hpair
    simpa [Direction.admits] using hadmits

/-- Pairs in order of which no two keys tie are steady. -/
theorem steady_of_untied [Std.TransOrd K]
    (huntied : pairs.toList.Pairwise fun a b => compare a.1 b.1 ≠ .eq)
    (hordered : pairs.toList.Pairwise fun a b => strategy.direction.admits a.1 b.1) :
  Steady strategy pairs
  := by
  induction n, pairs using arranged.induct (K := K) strategy with
  | case1 n pairs haction | case2 n pairs haction | case3 n pairs haction =>
      apply Steady.unsplit
      simp [haction]
  | case4 n pairs haction parted pivot hpartition ihfront ihback =>
      have nonempty := Nat.lt_of_succ_lt (Strategy.one_lt_of_action_split haction)
      have hparted := parted_of_untied huntied hordered (pairs.pivotPosition nonempty)
      rw [partition_of_parted hparted] at hpartition
      obtain ⟨rfl, rfl⟩ := Prod.mk.inj hpartition
      rw [pairs.toList_eq_front_back (pairs.pivotPosition nonempty)] at hordered huntied
      obtain ⟨hfront, hrest, -⟩ := List.pairwise_append.mp hordered
      obtain ⟨hfrontUntied, hrestUntied, -⟩ := List.pairwise_append.mp huntied
      apply Steady.split haction hparted
      · apply ihfront hfrontUntied hfront
      · apply ihback hrestUntied.of_cons hrest.of_cons

end Pairs

/-! ### Runs on pairs in order -/

section

variable {K V : Type} [DigitKey K] {n : Nat} {strategy : Strategy} {depth : Nat} {w : Window n}
  {run run' : Run K V n}

/-- Sorting a window leaves all pairs where they are if those in it are left as they are, and
only then. -/
theorem Run.Sorts.pairs_eq_iff (h : Sorts strategy depth w run run') :
  run'.pairs = run.pairs
    ↔ (run.pairs.slice w).arranged strategy = (run.pairs.slice w).toList
  := by
  constructor
  · intro hpairs
    rw [← h.arranges.toList_slice, hpairs]
  · intro harranged
    obtain ⟨before, behind, hlist, hbefore⟩ := run.pairs.exists_toList_eq_slice w
    apply Pairs.toList_injective
    rw [h.arranges before behind _ hlist hbefore, harranged, hlist]

/-- Sorting a window leaves keys that are in order as they are, up to ties. -/
theorem Run.Sorts.keys_tie [Std.TransOrd K] (h : Sorts strategy depth w run run')
    (hdigits : strategy.span.Follows ((run.pairs.slice w).toList.map Prod.fst))
    (hordered : (run.pairs.slice w).toList.Pairwise fun a b =>
      strategy.direction.admits a.1 b.1) :
  List.Forall₂ (fun a b => compare a b = .eq) run.pairs.keys.toList run'.pairs.keys.toList
  := by
  have hsame (keys : List K) : List.Forall₂ (fun a b => compare a b = .eq) keys keys := by
    apply List.forall₂_same.mpr
    intro _ _
    apply Std.ReflCmp.compare_self
  have hrange : List.Forall₂ (fun a b => compare a b = .eq)
      ((run.pairs.slice w).toList.map Prod.fst)
      (((run.pairs.slice w).arranged strategy).map Prod.fst) := by
    have hperm := Pairs.arranged_perm strategy (run.pairs.slice w)
    apply Direction.forall₂_of_perm (hperm.symm.map Prod.fst)
    · apply List.pairwise_map.mpr hordered
    · apply List.pairwise_map.mpr (Pairs.pairwise_arranged fun _ _ => hdigits)
  obtain ⟨before, behind, hlist, hbefore⟩ := run.pairs.exists_toList_eq_slice w
  rw [← Pairs.map_fst_toList, ← Pairs.map_fst_toList, h.arranges before behind _ hlist hbefore,
    hlist]
  simp only [List.map_append]
  apply List.rel_append (List.rel_append (hsame _) hrange) (hsame _)

end

/-! ### Sorts of keys in order -/

/-- A sort has moved pairs only in the window, and only to where a key stood that ties with
theirs. -/
structure Ending.MovesTies {K V : Type} [Ord K] (ending : Ending K V) (keys : Array K)
    (values : Array V) (offset length : Nat) : Prop where
  permuted : PermutedIn offset length keys values ending.keys ending.values
  ties : List.Forall₂ (fun a b => compare a b = .eq) keys.toList ending.keys.toList

/-- A sort has left the columns as they were. -/
def Ending.Keeps {K V : Type} (ending : Ending K V) (keys : Array K) (values : Array V) : Prop :=
  ending.keys = keys ∧ ending.values = values

section

variable {K V : Type} [DigitKey K] {strategy : Strategy} {scratch : Option (Scratch K V)}
  {keys : Array K} {values : Array V} {offset length : Nat}

/-- Where only equal keys tie, the keys have stayed as they were. -/
theorem Ending.MovesTies.keys_eq [Std.LawfulEqOrd K] {ending : Ending K V}
    (h : ending.MovesTies keys values offset length) :
  ending.keys = keys
  := by
  have heq : List.Forall₂ Eq keys.toList ending.keys.toList :=
    h.ties.imp fun _ _ => Std.LawfulEqCmp.eq_of_compare
  rw [List.forall₂_eq_eq_eq] at heq
  apply Array.toList_inj.mp heq.symm

theorem Passes.map_fst_range (h : Passes strategy scratch keys values offset length) :
  h.range.toList.map Prod.fst = stretch keys offset length
  := by
  rw [Pairs.map_fst_toList, h.toList_keys_range]

/-- A run leaves the columns as they were if the pairs in the window are left as they are, and
only then. -/
theorem Passes.columns_eq_iff
    (h : Passes strategy scratch keys values offset length) {run : Run K V keys.size}
    (hrun : Run.Sorts strategy 0 h.window (Run.start h.pairs scratch) run) :
  run.pairs.keys.toArray = keys ∧ run.pairs.values.toArray = values
    ↔ h.range.arranged strategy = h.range.toList
  := by
  apply Iff.trans _ hrun.pairs_eq_iff
  constructor
  · rintro ⟨hkeys, hvalues⟩
    have hcolumns : run.pairs.keys = h.pairs.keys ∧ run.pairs.values = h.pairs.values :=
      ⟨Vector.toArray_inj.mp hkeys, Vector.toArray_inj.mp hvalues⟩
    apply Pairs.toList_injective
    rw [Pairs.toList, hcolumns.1, hcolumns.2]
    rfl
  · intro hpairs
    rw [hpairs]
    exact ⟨rfl, rfl⟩

/-- A sort keeps the keys in its window. -/
theorem stretch_perm_of_result
    (hresult : (sortWindowWith strategy scratch keys values offset length).result = .ok ()) :
  (stretch (sortWindowWith strategy scratch keys values offset length).keys offset length).Perm
    (stretch keys offset length)
  := by
  obtain ⟨hpasses, run, hrun, hending⟩ := exists_sorts_of_result hresult
  rw [hending]
  simp only
  rw [hpasses.stretch_of_sorts hrun, ← hpasses.map_fst_range]
  apply (Pairs.arranged_perm strategy hpasses.range).map

/-- A sort of keys in order moves ties only.  It leaves the columns as they were if the pairs are
steady, as they are if they are not split or none of their keys tie. -/
theorem sortWindowWith_of_orders [Std.TransOrd K]
    (hresult : (sortWindowWith strategy scratch keys values offset length).result = .ok ())
    (hdigits : strategy.span.Follows (stretch keys offset length))
    (hordered : strategy.direction.Orders (stretch keys offset length)) :
  let ending := sortWindowWith strategy scratch keys values offset length
  let range := stretch keys offset length
  ending.MovesTies keys values offset length
    ∧ (∃ hpasses : Passes strategy scratch keys values offset length,
      (strategy.span.KeepsTies range → hpasses.range.Steady strategy → ending.Keeps keys values)
      ∧ ((stretchPairs keys values offset length).Nodup → ending.Keeps keys values →
        hpasses.range.Steady strategy))
    ∧ (length ≤ strategy.radixLimit ∧ strategy.span.KeepsTies range
        ∨ (range.Pairwise fun a b => compare a b ≠ .eq) →
      ending.Keeps keys values)
  := by
  intro ending range
  obtain ⟨hpasses, run, hrun, hending⟩ := exists_sorts_of_result hresult
  have hrange : hpasses.range.toList.map Prod.fst = range := hpasses.map_fst_range
  rw [Direction.orders_iff, ← hpasses.map_fst_range] at hordered
  have hpairwise := List.pairwise_map.mp hordered
  rw [← hpasses.map_fst_range] at hdigits
  have hcolumns := hpasses.columns_eq_iff hrun
  have hsteady (hties : strategy.span.KeepsTies range) (h : hpasses.range.Steady strategy) :
      ending.Keeps keys values := by
    rw [← hrange] at hties
    rw [show ending = _ from hending]
    apply hcolumns.mpr (h.arranged_eq hdigits hties hpairwise)
  refine ⟨?_, ⟨hpasses, hsteady, ?_⟩, ?_⟩
  · rw [show ending = _ from hending]
    exact ⟨hpasses.permutedIn hrun, hrun.keys_tie hdigits hpairwise⟩
  · intro hnodup hkeeps
    rw [← hpasses.toList_range] at hnodup
    rw [show ending = _ from hending] at hkeeps
    apply Pairs.steady_of_arranged_eq hnodup (hcolumns.mp hkeeps)
  · rintro (⟨hlimit, hties⟩ | huntied)
    · apply hsteady hties
      apply Pairs.Steady.unsplit
      rw [ne_eq, Strategy.action_eq_split_iff]
      omega
    · apply hsteady (DigitSpan.keepsTies_of_pairwise huntied)
      rw [← hrange] at huntied
      apply Pairs.steady_of_untied (List.pairwise_map.mp huntied) hpairwise

end

/-- Where the digits follow the keys, a sort of keys in order moves pairs only to where a key
stands that ties with theirs; so it leaves the keys as they were if only equal keys tie.  Where
the digits keep the ties, it leaves both columns as they were if the pairs in its window are
steady, and only then, if no two of these are alike; steady are all that are not split, and all
of which no keys tie.  The same goes for a sort of what the same sort has left. -/
theorem sorts_in_order_move_ties_only {K V : Type} [DigitKey K] [Std.TransOrd K]
    {strategy : Strategy} {scratch : Option (Scratch K V)} {keys : Array K} {values : Array V}
    {offset length : Nat}
    (hresult : (sortWindowWith strategy scratch keys values offset length).result = .ok ())
    (hdigits : strategy.span.Follows (stretch keys offset length)) :
  let ending := sortWindowWith strategy scratch keys values offset length
  let range := stretch keys offset length
  let unsplit := length ≤ strategy.radixLimit ∧ strategy.span.KeepsTies range
  let untied := range.Pairwise fun a b => compare a b ≠ .eq
  (strategy.direction.Orders range →
    ending.MovesTies keys values offset length
    ∧ (∀ [Std.LawfulEqOrd K], ending.keys = keys)
    ∧ (∃ hpasses : Passes strategy scratch keys values offset length,
      (strategy.span.KeepsTies range → hpasses.range.Steady strategy → ending.Keeps keys values)
      ∧ ((stretchPairs keys values offset length).Nodup → ending.Keeps keys values →
        hpasses.range.Steady strategy))
    ∧ (unsplit ∨ untied → ending.Keeps keys values))
  ∧ ∀ scratch' : Option (Scratch K V),
    let again := sortWindowWith strategy scratch' ending.keys ending.values offset length
    again.result = .ok () →
      again.MovesTies ending.keys ending.values offset length
      ∧ (∀ [Std.LawfulEqOrd K], again.keys = ending.keys)
      ∧ (unsplit ∨ untied → again.Keeps ending.keys ending.values)
  := by
  intro ending range unsplit untied
  constructor
  · intro hordered
    obtain ⟨hmoves, hsteady, hkept⟩ := sortWindowWith_of_orders hresult hdigits hordered
    exact ⟨hmoves, hmoves.keys_eq, hsteady, hkept⟩
  · intro scratch' again hagain
    have hperm : (stretch ending.keys offset length).Perm range := stretch_perm_of_result hresult
    have hordered : strategy.direction.Orders (stretch ending.keys offset length) :=
      orders_of_result hresult fun _ _ => hdigits
    obtain ⟨hmoves, -, hkept⟩ :=
      sortWindowWith_of_orders hagain (hdigits.subset hperm.subset) hordered
    refine ⟨hmoves, hmoves.keys_eq, ?_⟩
    rintro (⟨hlimit, hties⟩ | huntied)
    · apply hkept (Or.inl ⟨hlimit, hties.subset hperm.subset⟩)
    · apply hkept (Or.inr _)
      apply (hperm.pairwise_iff _).mpr huntied
      intro a b hab hba
      apply hab (Std.OrientedCmp.eq_symm hba)

/-- The last of three pairs is chosen for the pivot, and changes places with the one before it,
which has the same key, or one that ties; so it does again.  Two keys that tie change places when
they are sorted by digits, too. -/
theorem ties_moved_in_order :
  let strategy : Strategy := ⟨.ascending, 2, none, .low32⟩
  let keys : Array UInt32 := #[1, 2, 2]
  let values := #["a", "b", "c"]
  let once := sortWindowWith strategy none keys values 0 3
  let twice := sortWindowWith strategy none once.keys once.values 0 3
  let coarse : Array CoarseKey := #[⟨0x10000⟩, ⟨0x20001⟩, ⟨0x20002⟩]
  let split := sortWindowWith strategy none coarse values 0 3
  let tied : Array CoarseKey := #[⟨0x70002⟩, ⟨0x70001⟩]
  let unsplit := sortWindowWith strategy none tied #["a", "b"] 0 2
  (strategy.span.Follows (stretch keys 0 3) ∧ strategy.direction.Orders (stretch keys 0 3)
    ∧ once.result = .ok () ∧ once.values ≠ values
    ∧ twice.result = .ok () ∧ twice.values ≠ once.values)
  ∧ (strategy.span.Follows (stretch coarse 0 3) ∧ strategy.direction.Orders (stretch coarse 0 3)
    ∧ split.result = .ok () ∧ split.keys ≠ coarse)
  ∧ strategy.span.Follows (stretch tied 0 2) ∧ strategy.direction.Orders (stretch tied 0 2)
    ∧ unsplit.result = .ok ()
    ∧ stretchPairs unsplit.keys unsplit.values 0 2 = [(⟨0x70001⟩, "b"), (⟨0x70002⟩, "a")]
  := by
  intro strategy keys values once twice coarse split tied unsplit
  have hresult : unsplit.result = .ok () :=
    result_of_passes (by decide) ⟨rfl, by decide, by rintro s ⟨⟩, by decide⟩
  refine ⟨⟨DigitSpan.follows_uint32 _, ?_, ?_⟩, ⟨CoarseKey.follows _, ?_, ?_⟩,
    CoarseKey.follows _, ?_, hresult, ?_⟩
  · apply Direction.orders_iff.mpr
    decide
  · decide +kernel
  · apply Direction.orders_iff.mpr
    decide
  · decide +kernel
  · apply Direction.orders_iff.mpr
    decide
  · apply (stretchPairs_of_not_insertsAt hresult (by decide) (by decide)).trans
    cbv

/-- Ties stay where they are before and behind the pivot, as long as they are not split, and may
move where they tie with the pivot. -/
theorem steady_ties_kept :
  let strategy : Strategy := ⟨.ascending, 2, none, .low32⟩
  let steady : Array UInt32 := #[1, 1, 2, 3, 3]
  let unsteady : Array UInt32 := #[1, 2, 2]
  let ending := sortWindowWith strategy none unsteady #["a", "b", "c"] 0 3
  (sortWindowWith strategy none steady #["a", "b", "c", "d", "e"] 0 5).values
      = #["a", "b", "c", "d", "e"]
    ∧ ending.MovesTies unsteady #["a", "b", "c"] 0 3 ∧ ending.keys = unsteady
  := by
  intro strategy steady unsteady ending
  constructor
  · have hpasses : Passes strategy none steady #["a", "b", "c", "d", "e"] 0 5 :=
      ⟨rfl, by decide, by rintro s ⟨⟩, by decide⟩
    have hordered : strategy.direction.Orders (stretch steady 0 5) := by
      apply Direction.orders_iff.mpr
      decide
    obtain ⟨hinOrder, -⟩ := sorts_in_order_move_ties_only (result_of_passes (by decide) hpasses)
      (DigitSpan.follows_uint32 _)
    obtain ⟨-, -, ⟨hpasses, hsteady, -⟩, -⟩ := hinOrder hordered
    refine (hsteady (DigitSpan.keepsTies_of_lawfulEq _ _) ?_).2
    have hrange : hpasses.range = ⟨#v[1, 1, 2, 3, 3], #v["a", "b", "c", "d", "e"]⟩ :=
      Pairs.toList_injective hpasses.toList_range
    have hparted : Pairs.Parted .ascending hpasses.range
        (hpasses.range.pivotPosition (by decide)) := by
      rw [hrange]
      exact ⟨by decide, by decide⟩
    apply Pairs.Steady.split (by decide) hparted
    · apply Pairs.Steady.unsplit
      rw [hrange]
      decide
    · apply Pairs.Steady.unsplit
      rw [hrange]
      decide
  · have hpasses : Passes strategy none unsteady #["a", "b", "c"] 0 3 :=
      ⟨rfl, by decide, by rintro s ⟨⟩, by decide⟩
    have hordered : strategy.direction.Orders (stretch unsteady 0 3) := by
      apply Direction.orders_iff.mpr
      decide
    obtain ⟨hinOrder, -⟩ := sorts_in_order_move_ties_only (result_of_passes (by decide) hpasses)
      (DigitSpan.follows_uint32 _)
    obtain ⟨hmoves, hkeys, -⟩ := hinOrder hordered
    exact ⟨hmoves, hkeys⟩

end LockstepSort
