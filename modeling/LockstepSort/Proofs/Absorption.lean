import LockstepSort.Proofs.Call
import LockstepSort.Proofs.Tiling
import LockstepSort.Proofs.Unsplit

/-!
# Sorts that absorb earlier ones

A sort of a window that is not split is stable, and so are the sorts of windows inside it, even
where these are sorted by insertion and it is sorted by digits.  What ties in the order of the
whole window ties in the order of a part of it, so a sort of a part never changes the order of two
pairs that tie.  The sort of the whole window takes from what it finds no more than that order,
and so comes to the same as if the parts had not been sorted.
-/

namespace LockstepSort

/-! ### The order of a sort -/

section

variable {K V : Type} [DigitKey K] {strategy : Strategy}

/-- The order in which a strategy sorts ranges of `length` pairs that it does not split: by their
keys if they are few enough to be sorted by insertion, and else by the digits that are read. -/
def Strategy.order (strategy : Strategy) (length : Nat) (a b : K × V) : Bool :=
  if strategy.insertsAt length then
    strategy.direction.admits a.1 b.1
  else
    strategy.direction.admits (digitValue (strategy.span.passes K) a.1)
      (digitValue (strategy.span.passes K) b.1)

theorem Strategy.order_of_insertsAt {length : Nat} (h : strategy.insertsAt length) :
  strategy.order (K := K) (V := V) length = fun a b => strategy.direction.admits a.1 b.1
  := by
  funext a b
  apply if_pos h

theorem Strategy.order_of_not_insertsAt {length : Nat} (h : ¬ strategy.insertsAt length) :
  strategy.order (K := K) (V := V) length
    = fun a b => strategy.direction.admits (digitValue (strategy.span.passes K) a.1)
        (digitValue (strategy.span.passes K) b.1)
  := by
  funext a b
  apply if_neg h

variable [Std.TransOrd K]

theorem Strategy.isRanking_order (strategy : Strategy) (length : Nat) :
  IsRanking (strategy.order (K := K) (V := V) length)
  := by
  by_cases h : strategy.insertsAt length
  · rw [order_of_insertsAt h]
    apply strategy.direction.isRanking_admits Prod.fst
  · rw [order_of_not_insertsAt h]
    apply strategy.direction.isRanking_admits
      fun pair : K × V => digitValue (strategy.span.passes K) pair.1

/-- Pairs that are not split are sorted stably in the order of their number. -/
theorem Pairs.isStableSort_arranged {n : Nat} (hlimit : n ≤ strategy.radixLimit)
    (pairs : Pairs K V n) :
  IsStableSort (strategy.order n) pairs.toList (pairs.arranged strategy)
  := by
  by_cases h : strategy.insertsAt n
  · rw [Strategy.order_of_insertsAt h, arranged_of_insertsAt hlimit h]
    apply strategy.direction.isStableSort_stableSort Prod.fst
  · rw [Strategy.order_of_not_insertsAt h, arranged_of_not_insertsAt hlimit h]
    apply strategy.direction.isStableSort_stableSort

/-- What ties in the order of a range ties in that of a shorter one, if nothing is sorted by
insertion or the digits follow the keys. -/
theorem Strategy.tied_order_of_le {keys : List K} {shorter longer : Nat} (hle : shorter ≤ longer)
    (hdigits : strategy.insertionLimit = none ∨ strategy.span.Follows keys) {a b : K × V}
    (ha : a.1 ∈ keys) (hb : b.1 ∈ keys) (h : tied (strategy.order longer) a b) :
  tied (strategy.order shorter) a b
  := by
  by_cases hshorter : strategy.insertsAt shorter
  · by_cases hlonger : strategy.insertsAt longer
    · rwa [order_of_insertsAt hshorter, ← order_of_insertsAt hlonger]
    · -- Only here do the two orders differ: the part is sorted by keys and the whole by digits.
      have hfollows : strategy.span.Follows keys := by
        apply hdigits.resolve_left
        obtain ⟨limit, hlimit, -⟩ := insertsAt_iff.mp hshorter
        simp [hlimit]
      rw [order_of_not_insertsAt hlonger] at h
      rw [order_of_insertsAt hshorter]
      simp only [tied, Bool.and_eq_true] at h ⊢
      exact ⟨hfollows.admits ha hb h.1, hfollows.admits hb ha h.2⟩
  · have hlonger := mt (insertsAt_of_le hle) hshorter
    rwa [order_of_not_insertsAt hshorter, ← order_of_not_insertsAt hlonger]

end

/-! ### Pairs that tie alike -/

namespace Pairs

section

variable {K V : Type} {n : Nat} {le : K × V → K × V → Bool} {w inner : Window n}
  {pairs pairs' pairs'' : Pairs K V n}

/-- The pairs in a window tie in the same order as others do, and do not differ from these
elsewhere. -/
structure TiedAlike (le : K × V → K × V → Bool) (w : Window n) (pairs pairs' : Pairs K V n) :
    Prop where
  ties : SameTies le (pairs.slice w).toList (pairs'.slice w).toList
  elsewhere (range : Pairs K V w.length) : pairs'.replace w range = pairs.replace w range

namespace TiedAlike

theorem refl (le : K × V → K × V → Bool) (w : Window n) (pairs : Pairs K V n) :
  TiedAlike le w pairs pairs
  := ⟨.refl _ _, fun _ => rfl⟩

theorem trans (h : TiedAlike le w pairs pairs') (h' : TiedAlike le w pairs' pairs'') :
  TiedAlike le w pairs pairs''
  where
  ties := h.ties.trans h'.ties
  elsewhere range := (h'.elsewhere range).trans (h.elsewhere range)

/-- Pairs that are put in a window inside another one tie as they did before in the other one, if
they do so in that window. -/
theorem of_replace {range : Pairs K V inner.length} (hwithin : inner.Within w)
    (h : SameTies le (pairs.slice inner).toList range.toList) :
  TiedAlike le w pairs (pairs.replace inner range)
  where
  ties := by
    obtain ⟨front, back, hslice⟩ := hwithin.exists_toList_slice_replace pairs
    have happend := h.append front back
    rwa [← hslice, ← hslice, replace_slice] at happend
  elsewhere := hwithin.replace_replace pairs range

theorem mem_iff (hle : IsRanking le) (h : TiedAlike le w pairs pairs') {pair : K × V} :
  pair ∈ (pairs'.slice w).toList ↔ pair ∈ (pairs.slice w).toList
  := h.ties.mem_iff hle

theorem keys_subset (hle : IsRanking le) (h : TiedAlike le w pairs pairs') :
  (pairs'.slice w).keys.toList ⊆ (pairs.slice w).keys.toList
  := by
  rw [← map_fst_toList, ← map_fst_toList]
  apply List.map_subset
  intro pair hpair
  apply (h.mem_iff hle).mp hpair

end TiedAlike

end

/-! ### Sorts of pairs -/

section

variable {K V : Type} [DigitKey K] [Std.TransOrd K] {n : Nat} {strategy : Strategy}
  {scratch scratch' : Option (Scratch K V)} {w inner : Window n} {pairs pairs' : Pairs K V n}

/-- A sort of a window inside another one leaves what ties in the other one as it stands. -/
theorem tiedAlike_of_sorts {depth : Nat} {run run' : Run K V n}
    (h : Run.Sorts strategy depth inner run run') (hwithin : inner.Within w)
    (hlength : w.length ≤ strategy.radixLimit)
    (hdigits : strategy.insertionLimit = none
      ∨ strategy.span.Follows (run.pairs.slice w).keys.toList) :
  TiedAlike (strategy.order w.length) w run.pairs run'.pairs
  := by
  have hinner : inner.length ≤ w.length := by
    obtain ⟨hoffset, hstop⟩ := hwithin
    omega
  have hsorted := isStableSort_arranged (hinner.trans hlength) (run.pairs.slice inner)
  rw [← h.arranges.toList_slice] at hsorted
  rw [h.arranges.pairs_eq_replace]
  apply TiedAlike.of_replace hwithin
  apply hsorted.sameTies_of_tied (strategy.isRanking_order w.length)
    (strategy.isRanking_order inner.length)
  have hsubset := hwithin.slice_subset run.pairs
  intro a ha b hb
  apply Strategy.tied_order_of_le hinner hdigits (mem_keys (hsubset ha)) (mem_keys (hsubset hb))

/-- Sorts of a window that is not split come to the same for pairs that tie alike in it, unless a
digit cannot be read that they are done by. -/
theorem TiedAlike.sortWindow
    (h : TiedAlike (strategy.order w.length) w pairs pairs') (hlimit : n < sizeLimit)
    (hlength : w.length ≤ strategy.radixLimit) (hserved : strategy.ServedBy w.length scratch)
    (hserved' : strategy.ServedBy w.length scratch') :
  let ending := pairs.sortWindow strategy w scratch
  let ending' := pairs'.sortWindow strategy w scratch'
  (ending.result = .ok () ↔ ending'.result = .ok ())
    ∧ (ending.result = .ok () → ending'.keys = ending.keys ∧ ending'.values = ending.values)
  := by
  intro ending ending'
  have hranking : IsRanking (strategy.order (K := K) (V := V) w.length) :=
    strategy.isRanking_order w.length
  have haction : strategy.action w.length ≠ .split := by
    rw [ne_eq, Strategy.action_eq_split_iff]
    omega
  have hiff : ending.result = .ok () ↔ ending'.result = .ok () := by
    rw [result_sortWindow_iff, result_sortWindow_iff,
      Run.exists_sort_iff_of_not_split 0 (.start pairs scratch) hlimit haction hserved,
      Run.exists_sort_iff_of_not_split 0 (.start pairs' scratch') hlimit haction hserved']
    simp only [Run.start, h.mem_iff hranking]
  refine ⟨hiff, ?_⟩
  intro hresult
  obtain ⟨run, hrun⟩ := result_sortWindow_iff.mp hresult
  obtain ⟨run', hrun'⟩ := result_sortWindow_iff.mp (hiff.mp hresult)
  have harranges := (Run.sort_eq_ok.mp hrun).arranges
  have harranges' := (Run.sort_eq_ok.mp hrun').arranges
  -- Both sorts are stable, so they take from the window no more than the order of its ties.
  have hslice : run'.pairs.slice w = run.pairs.slice w := by
    have hsorted := isStableSort_arranged hlength (pairs.slice w)
    have hsorted' := isStableSort_arranged hlength (pairs'.slice w)
    apply toList_injective
    rw [harranges'.toList_slice, harranges.toList_slice]
    apply hsorted'.unique hranking (hsorted.of_sameTies h.ties)
  have hpairs : run'.pairs = run.pairs := by
    rw [harranges'.pairs_eq_replace, harranges.pairs_eq_replace, hslice]
    apply h.elsewhere
  simp only [ending, ending', Pairs.sortWindow, hrun, hrun']
  exact ⟨congrArg (fun pairs => pairs.keys.toArray) hpairs,
    congrArg (fun pairs => pairs.values.toArray) hpairs⟩

end

end Pairs

/-! ### Calls -/

namespace Call

section

variable {K V : Type} [DigitKey K]

/-- What calls end with when they are carried out one after the other, each on the columns that the
one before it left behind. -/
def endings (keys : Array K) (values : Array V) : List (Call K V) → List (Ending K V)
  | [] => []
  | call :: calls =>
    let ending := call.ending keys values
    ending :: endings ending.keys ending.values calls

/-- A call is to sort a window inside another one, under a strategy. -/
def SortsInside (strategy : Strategy) (offset length : Nat) : Call K V → Prop
  | sortWindowWith strategy' _ offset' length' =>
    strategy' = strategy ∧ offset ≤ offset' ∧ offset' + length' ≤ offset + length
  | _ => False

end

section

variable {K V : Type} [DigitKey K] [Std.TransOrd K] {n : Nat} {strategy : Strategy}
  {w : Window n} {pairs : Pairs K V n} {call : Call K V}

/-- A call that is carried out on pairs leaves pairs that tie alike. -/
theorem SortsInside.exists_tiedAlike
    (h : call.SortsInside strategy w.offset w.length) (hlength : w.length ≤ strategy.radixLimit)
    (hdigits : strategy.insertionLimit = none
      ∨ strategy.span.Follows (pairs.slice w).keys.toList)
    (hresult : (call.ending pairs.keys.toArray pairs.values.toArray).result = .ok ()) :
  let ending := call.ending pairs.keys.toArray pairs.values.toArray
  ∃ pairs' : Pairs K V n, ending.keys = pairs'.keys.toArray
    ∧ ending.values = pairs'.values.toArray
    ∧ Pairs.TiedAlike (strategy.order w.length) w pairs pairs'
  := by
  intro ending
  cases call with
  | sortWindowWith strategy' scratch offset length =>
      obtain ⟨rfl, hwithin⟩ := h
      obtain ⟨⟨keys, rfl⟩, ⟨values, hvalues⟩⟩ := pairs
      obtain ⟨hpasses, run, hrun, hending⟩ := exists_sorts_of_result hresult
      rw [show ending = _ from hending]
      exact ⟨run.pairs, rfl, rfl, Pairs.tiedAlike_of_sorts hrun hwithin hlength hdigits⟩
  | _ => cases h

/-- Calls that are carried out on pairs, one after the other, leave pairs that tie alike. -/
theorem exists_tiedAlike (w : Window n) (pairs : Pairs K V n)
    (hlength : w.length ≤ strategy.radixLimit)
    (hdigits : strategy.insertionLimit = none
      ∨ strategy.span.Follows (pairs.slice w).keys.toList)
    (calls : List (Call K V))
    (hinside : ∀ call ∈ calls, call.SortsInside strategy w.offset w.length)
    (hresults : ∀ ending ∈ endings pairs.keys.toArray pairs.values.toArray calls,
      ending.result = .ok ()) :
  ∃ pairs' : Pairs K V n,
    columnsAfter pairs.keys.toArray pairs.values.toArray calls
      = (pairs'.keys.toArray, pairs'.values.toArray)
    ∧ Pairs.TiedAlike (strategy.order w.length) w pairs pairs'
  := by
  induction calls generalizing pairs with
  | nil => exact ⟨pairs, rfl, .refl _ w pairs⟩
  | cons call calls ih =>
      obtain ⟨hfirst, hrest⟩ := List.forall_mem_cons.mp hresults
      obtain ⟨hcall, hcalls⟩ := List.forall_mem_cons.mp hinside
      obtain ⟨middle, hkeys, hvalues, halike⟩ := hcall.exists_tiedAlike hlength hdigits hfirst
      rw [hkeys, hvalues] at hrest
      -- No key is new in the window, so the digits still follow the keys there.
      have hsubset := halike.keys_subset (strategy.isRanking_order w.length)
      obtain ⟨pairs', hcolumns, halike'⟩ :=
        ih middle (hdigits.imp_right fun hfollows => hfollows.subset hsubset) hcalls hrest
      refine ⟨pairs', ?_, halike.trans halike'⟩
      rw [columnsAfter, hkeys, hvalues, hcolumns]

end

end Call

/-- A request that passes the checks is one of its pairs. -/
theorem sortWindowWith_of_pairs {K V : Type} [DigitKey K] {n : Nat} {strategy : Strategy}
    {scratch : Option (Scratch K V)} (hlimit : n < sizeLimit) (pairs : Pairs K V n) (w : Window n)
    (hserved : strategy.ServedBy w.length scratch)
    (hsigns : ¬ ∃ key ∈ (pairs.slice w).keys.toList, DigitKey.isNegative key) :
  sortWindowWith strategy scratch pairs.keys.toArray pairs.values.toArray w.offset w.length
    = pairs.sortWindow strategy w scratch
  := by
  obtain ⟨⟨keys, rfl⟩, ⟨values, hvalues⟩⟩ := pairs
  rw [toList_keys_slice] at hsigns
  apply sortWindowWith_of_checked
  apply checked_of_passes hlimit ⟨hvalues.symm, w.fits, hserved, hsigns⟩

/-- A sort of a window that is not split absorbs all sorts of windows inside it that were carried
out before under the same strategy, in any number and wherever they overlap: it leaves the same
keys and the same values as if it had come first, if nothing is sorted by insertion or the digits
follow the keys in the window. -/
theorem inner_sorts_absorbed {K V : Type} [DigitKey K] [Std.TransOrd K] {strategy : Strategy}
    {scratch scratch' : Option (Scratch K V)} {keys : Array K} {values : Array V}
    {offset length : Nat} (hlimit : keys.size < sizeLimit)
    (hpasses : Passes strategy scratch keys values offset length)
    (hserved : strategy.ServedBy length scratch') (hlength : length ≤ strategy.radixLimit)
    (hdigits : strategy.insertionLimit = none
      ∨ strategy.span.Follows (stretch keys offset length))
    (calls : List (Call K V))
    (hinside : ∀ call ∈ calls, call.SortsInside strategy offset length)
    (hresults : ∀ ending ∈ Call.endings keys values calls, ending.result = .ok ()) :
  let columns := Call.columnsAfter keys values calls
  let once := sortWindowWith strategy scratch keys values offset length
  let last := sortWindowWith strategy scratch' columns.1 columns.2 offset length
  (once.result = .ok () ↔ last.result = .ok ())
    ∧ (once.result = .ok () → last.keys = once.keys ∧ last.values = once.values)
    ∧ ∀ [LawfulDigitKey K], once.result = .ok ()
  := by
  intro columns once last
  rw [← hpasses.toList_keys_range] at hdigits
  obtain ⟨pairs', hcolumns, halike⟩ :=
    Call.exists_tiedAlike hpasses.window hpasses.pairs hlength hdigits calls hinside hresults
  have hsigns : ¬ ∃ key ∈ hpasses.range.keys.toList, DigitKey.isNegative key := by
    rw [hpasses.toList_keys_range]
    apply hpasses.signs
  have hsigns' : ¬ ∃ key ∈ (pairs'.slice hpasses.window).keys.toList,
      DigitKey.isNegative key := by
    rintro ⟨key, hkey, hnegative⟩
    apply hsigns
    exact ⟨key, halike.keys_subset (strategy.isRanking_order length) hkey, hnegative⟩
  have honce : once = hpasses.pairs.sortWindow strategy hpasses.window scratch :=
    sortWindowWith_of_pairs hlimit hpasses.pairs hpasses.window hpasses.served hsigns
  have hlast : last = pairs'.sortWindow strategy hpasses.window scratch' := by
    simp only [last, columns, show Call.columnsAfter keys values calls = _ from hcolumns]
    apply sortWindowWith_of_pairs hlimit pairs' hpasses.window hserved hsigns'
  obtain ⟨hiff, hsame⟩ := halike.sortWindow hlimit hlength hpasses.served hserved
  rw [honce, hlast]
  refine ⟨hiff, hsame, ?_⟩
  intro _
  rw [← honce]
  apply result_of_passes hlimit hpasses

/-- Of two windows that overlap, one is sorted by insertion and the other by digits.  Neither shows
in the sort of a window around both, in which equal keys keep the order they had at first. -/
theorem overlapping_sorts_absorbed :
  let strategy : Strategy := ⟨.descending, 5, some 2, .low32⟩
  let keys : Array UInt32 := #[1, 3, 7, 3, 7]
  let values := #["a", "b", "c", "d", "e"]
  let calls : List (Call UInt32 String) :=
    [.sortWindowWith strategy none 1 2, .sortWindowWith strategy none 2 3]
  let columns := Call.columnsAfter keys values calls
  let once := sortWindowWith strategy none keys values 1 4
  let last := sortWindowWith strategy none columns.1 columns.2 1 4
  last.keys = once.keys ∧ last.values = once.values
    ∧ stretchPairs last.keys last.values 1 4 = [(7, "c"), (7, "e"), (3, "b"), (3, "d")]
  := by
  intro strategy keys values calls columns once last
  have hlimit : keys.size < sizeLimit := by decide
  have hpasses {keys : Array UInt32} {values : Array String} {offset length : Nat}
      (hpaired : keys.size = values.size) (hfits : offset + length ≤ keys.size) :
      Passes strategy none keys values offset length :=
    ⟨hpaired, hfits, by rintro s ⟨⟩, by simp [DigitKey.isNegative]⟩
  have hrequest : Passes strategy none keys values 1 4 := hpasses rfl (by decide)
  have hinside : ∀ call ∈ calls, call.SortsInside strategy 1 4 := by
    simp [calls, Call.SortsInside]
  have hresults : ∀ ending ∈ Call.endings keys values calls, ending.result = .ok () := by
    let first := (Call.sortWindowWith strategy none 1 2).ending keys values
    have hfirst : SamePairs keys values first.keys first.values := Call.samePairs hlimit _ values
    intro ending hending
    obtain rfl | hending := List.mem_cons.mp hending
    · apply result_of_passes hlimit (hpasses rfl (by decide))
    · obtain rfl := List.mem_singleton.mp hending
      apply result_of_passes (hfirst.keys_size.trans_lt hlimit)
      apply hpasses (hfirst.keys_size.trans hfirst.values_size.symm)
      rw [hfirst.keys_size]
      decide
  obtain ⟨-, hsame, hresult⟩ := inner_sorts_absorbed hlimit hrequest hrequest.served
    (by decide) (.inr (DigitSpan.follows_uint32 _)) calls hinside hresults
  obtain ⟨hkeys, hvalues⟩ := hsame hresult
  obtain ⟨_, hstretch⟩ := stretchPairs_of_result hresult
  -- Left to itself, the kernel would carry out the sorts to compare their columns.
  have hlast : last = sortWindowWith strategy none (Call.columnsAfter keys values calls).1
      (Call.columnsAfter keys values calls).2 1 4 := rfl
  rw [hlast]
  refine ⟨hkeys, hvalues, ?_⟩
  rw [hkeys, hvalues]
  apply hstretch.trans
  rw [Pairs.arranged_of_not_insertsAt (by decide) (by decide)]
  cbv

end LockstepSort
