import LockstepSort.Insertion
import LockstepSort.Pairs.Lemmas
import LockstepSort.Proofs.StableSort

/-!
# Sorting by insertion is a stable sort by the keys

The pairs that were reached so far are kept as the stable sort of what they were.  The next
pair sinks past the ones it precedes, down to where the stable sort has it.  On its way it is
exchanged with one neighbour after another, and each exchange puts two keys in order and no
two out of it.  So the sort ends after as many exchanges as there were keys out of order.
-/

namespace LockstepSort

/-! ### Inversions -/

section

variable {α : Type} {before : α → α → Bool} {a b : α}

/-- The number of times that an element of a list belongs before one that stands before it. -/
def inversions (before : α → α → Bool) : List α → Nat
  | [] => 0
  | a :: list => list.countP (fun b => before b a) + inversions before list

/-- Two neighbours out of order, exchanged, are one inversion less. -/
theorem inversions_exchange (h : before a b) (h' : ¬ before b a) (front rest : List α) :
  inversions before (front ++ b :: a :: rest) = inversions before (front ++ a :: b :: rest) + 1
  := by
  induction front with
  | nil =>
      simp only [List.nil_append, inversions, List.countP_cons]
      rw [if_pos h, if_neg h']
      omega
  | cons c front ih =>
      have hperm : (front ++ b :: a :: rest).Perm (front ++ a :: b :: rest) := by
        apply (List.Perm.swap a b rest).append_left
      simp only [List.cons_append, inversions]
      rw [hperm.countP_eq, ih, Nat.add_assoc]

theorem inversions_of_pairwise {list : List α} (h : list.Pairwise fun a b => ¬ before b a) :
  inversions before list = 0
  := by
  induction list with
  | nil => rfl
  | cons a list ih =>
      obtain ⟨hfirst, hrest⟩ := List.pairwise_cons.mp h
      rw [inversions, ih hrest, List.countP_eq_zero.mpr hfirst]

/-- No two elements are an inversion more than once. -/
theorem two_mul_inversions_le (before : α → α → Bool) (list : List α) :
  2 * inversions before list ≤ list.length * (list.length - 1)
  := by
  induction list with
  | nil => simp [inversions]
  | cons a list ih =>
      have hcount : list.countP (fun b => before b a) ≤ list.length := List.countP_le_length
      have hsquare := Nat.le_mul_self list.length
      rw [Nat.mul_sub_one] at ih
      rw [inversions, List.length_cons, Nat.add_sub_cancel, Nat.succ_mul list.length]
      omega

end

namespace Pairs

/-! ### Neighbours -/

variable {K V : Type} {n i : Nat} {pairs : Pairs K V n} {front rest : List (K × V)}
  {pair other : K × V}

theorem getElem_of_toList_eq
    (h : pairs.toList = front ++ pair :: rest) (hi : front.length = i) (hn : i < n) :
  (pairs.keys[i], pairs.values[i]) = pair
  := by
  rw [← getElem_toList pairs hn (by simpa using hn)]
  simp [h, ← hi]

/-- Every position cuts the list of the pairs in two around its pair. -/
theorem exists_toList_eq (pairs : Pairs K V n) (hn : i < n) :
  ∃ front pair rest, pairs.toList = front ++ pair :: rest ∧ front.length = i
  := by
  have hlength : i < pairs.toList.length := by simpa using hn
  use pairs.toList.take i, pairs.toList[i], pairs.toList.drop (i + 1)
  constructor
  · simp
  · apply List.length_take_of_le
    omega

/-- Two pairs that stand side by side, exchanged. -/
theorem toList_swap_of_adjacent
    (h : pairs.toList = front ++ other :: pair :: rest) (hi : front.length = i)
    (hn : i + 1 < n) :
  (pairs.swap ⟨i + 1, hn⟩ ⟨i, by omega⟩).toList = front ++ pair :: other :: rest
  := by
  have hother := getElem_of_toList_eq h hi (by omega)
  have hbehind : pairs.toList = (front ++ [other]) ++ pair :: rest := by simpa using h
  have hpair := getElem_of_toList_eq hbehind (by simpa using hi) hn
  have hget (k : Fin n) : (pairs.keys.get k, pairs.values.get k)
      = (pairs.keys[k.val], pairs.values[k.val]) := rfl
  rw [toList_swap, hget, hget, hother, hpair, h]
  simp [← hi]

/-- Two positions side by side cut the list of the pairs around their pairs, and an exchange of
these leaves the rest where it is. -/
theorem exists_toList_swap (pairs : Pairs K V n) (hn : i + 1 < n) :
  ∃ front other pair rest, pairs.toList = front ++ other :: pair :: rest
    ∧ pairs.keys.get ⟨i, Nat.lt_of_succ_lt hn⟩ = other.1 ∧ pairs.keys.get ⟨i + 1, hn⟩ = pair.1
    ∧ (pairs.swap ⟨i + 1, hn⟩ ⟨i, Nat.lt_of_succ_lt hn⟩).toList = front ++ pair :: other :: rest
  := by
  obtain ⟨front, other, rest, hlist, hi⟩ := pairs.exists_toList_eq (Nat.lt_of_succ_lt hn)
  obtain ⟨pair, rest, rfl⟩ : ∃ pair rest', rest = pair :: rest' := by
    apply List.exists_cons_of_length_pos
    have hlength := congrArg List.length hlist
    rw [length_toList, List.length_append, List.length_cons] at hlength
    omega
  have hbehind : pairs.toList = (front ++ [other]) ++ pair :: rest := by simpa using hlist
  refine ⟨front, other, pair, rest, hlist, ?_, ?_, toList_swap_of_adjacent hlist hi hn⟩
  · apply congrArg Prod.fst (getElem_of_toList_eq hlist hi (Nat.lt_of_succ_lt hn))
  · apply congrArg Prod.fst (getElem_of_toList_eq hbehind (by simpa using hi) hn)

/-! ### Exchanges -/

variable [Ord K]

/-- `pairs'` are `pairs` after `count` exchanges of neighbours, the latter of which precedes the
former each time. -/
inductive Exchanges (direction : Direction) : Nat → Pairs K V n → Pairs K V n → Prop
  | refl (pairs : Pairs K V n) : Exchanges direction 0 pairs pairs
  | step {count i : Nat} {pairs pairs' : Pairs K V n} (hn : i + 1 < n)
      (hprecedes : direction.precedes (pairs.keys.get ⟨i + 1, hn⟩)
        (pairs.keys.get ⟨i, Nat.lt_of_succ_lt hn⟩))
      (hrest : Exchanges direction count
        (pairs.swap ⟨i + 1, hn⟩ ⟨i, Nat.lt_of_succ_lt hn⟩) pairs') :
      Exchanges direction (count + 1) pairs pairs'

namespace Exchanges

variable {direction : Direction} {count count' : Nat} {pairs' pairs'' : Pairs K V n}

theorem trans (h : Exchanges direction count pairs pairs')
    (h' : Exchanges direction count' pairs' pairs'') :
  Exchanges direction (count + count') pairs pairs''
  := by
  induction h with
  | refl => rwa [Nat.zero_add]
  | step hn hprecedes _ ih =>
      rw [Nat.add_right_comm]
      apply step hn hprecedes (ih h')

theorem perm (h : Exchanges direction count pairs pairs') :
  pairs'.toList.Perm pairs.toList
  := by
  induction h with
  | refl => apply List.Perm.refl
  | @step count i pairs pairs' hn _ _ ih =>
      obtain ⟨front, other, pair, rest, hlist, -, -, hswap⟩ := pairs.exists_toList_swap hn
      apply ih.trans
      rw [hlist, hswap]
      apply (List.Perm.swap other pair rest).append_left

/-- Each exchange leaves one inversion less. -/
theorem inversions_eq [Std.OrientedOrd K] (h : Exchanges direction count pairs pairs') :
  inversions direction.precedes pairs.keys.toList
    = inversions direction.precedes pairs'.keys.toList + count
  := by
  induction h with
  | refl => rfl
  | @step count i pairs pairs' hn hprecedes _ ih =>
      obtain ⟨front, other, pair, rest, hlist, hother, hpair, hswap⟩ := pairs.exists_toList_swap hn
      rw [hother, hpair] at hprecedes
      have hnot : ¬ direction.precedes other.1 pair.1 := by
        simpa [Direction.admits] using Direction.admits_of_precedes hprecedes
      rw [← map_fst_toList, hlist, List.map_append, List.map_cons, List.map_cons,
        inversions_exchange hprecedes hnot]
      rw [← map_fst_toList, hswap, List.map_append, List.map_cons, List.map_cons] at ih
      omega

end Exchanges

theorem exists_exchanges_sink (direction : Direction) (pairs : Pairs K V n) (hn : i < n) :
  ∃ count, Exchanges direction count pairs (pairs.sink direction i hn)
  := by
  induction i generalizing pairs with
  | zero => exact ⟨0, .refl pairs⟩
  | succ i ih =>
      rw [sink]
      split
      next hprecedes =>
          obtain ⟨count, hcount⟩ := ih (pairs.swap ⟨i + 1, hn⟩ ⟨i, by omega⟩) (by omega)
          exact ⟨count + 1, .step hn hprecedes hcount⟩
      next => exact ⟨0, .refl pairs⟩

theorem exists_exchanges_insertionSort (direction : Direction) (pairs : Pairs K V n) :
  ∃ count, Exchanges direction count pairs (pairs.insertionSort direction)
  := by
  have aux (k : Nat) (hk : k ≤ n) : ∃ count, Exchanges direction count pairs
      (k.fold (fun i h sorted => sorted.sink direction i (by omega)) pairs) := by
    induction k with
    | zero => exact ⟨0, .refl pairs⟩
    | succ k ih =>
        obtain ⟨count, hcount⟩ := ih (by omega)
        rw [Nat.fold_succ]
        obtain ⟨count', hcount'⟩ := exists_exchanges_sink direction
          (k.fold (fun i h sorted => sorted.sink direction i (by omega)) pairs) hk
        exact ⟨count + count', hcount.trans hcount'⟩
  apply aux n (Nat.le_refl n)

/-- Sorting by insertion exchanges pairs only. -/
theorem insertionSort_perm (direction : Direction) (pairs : Pairs K V n) :
  (pairs.insertionSort direction).toList.Perm pairs.toList
  := by
  obtain ⟨count, hexchanges⟩ := exists_exchanges_insertionSort direction pairs
  apply hexchanges.perm

/-! ### The stable sort -/

/-- A pair sinks past pairs that it precedes, and stops behind one that it does not precede
or at the front. -/
theorem exists_toList_sink
    (direction : Direction) (h : pairs.toList = front ++ pair :: rest)
    (hi : front.length = i) (hn : i < n) :
  ∃ above below, front = above ++ below
    ∧ (pairs.sink direction i hn).toList = above ++ pair :: below ++ rest
    ∧ (∀ other ∈ above.getLast?, ¬ direction.precedes pair.1 other.1)
    ∧ ∀ other ∈ below, direction.precedes pair.1 other.1
  := by
  induction i generalizing pairs front rest with
  | zero =>
      obtain rfl := List.length_eq_zero_iff.mp hi
      use [], []
      simpa [sink] using h
  | succ i ih =>
      obtain rfl | ⟨front, other, rfl⟩ := front.eq_nil_or_concat'
      · contradiction
      have hfront : front.length = i := by simpa using hi
      have hadjacent : pairs.toList = front ++ other :: pair :: rest := by simpa using h
      have hother := congrArg Prod.fst (getElem_of_toList_eq hadjacent hfront (by omega))
      have hpair := congrArg Prod.fst (getElem_of_toList_eq h hi hn)
      simp only at hother hpair
      rw [sink, hother, hpair]
      split
      next hprecedes =>
          obtain ⟨above, below, rfl, hsink, habove, hbelow⟩ :=
            ih (toList_swap_of_adjacent hadjacent hfront hn) hfront (by omega)
          use above, below ++ [other]
          refine ⟨by simp, ?_, habove, ?_⟩
          · rw [hsink]
            simp
          · intro next hnext
            obtain hnext | hnext := List.mem_append.mp hnext
            · apply hbelow next hnext
            · rwa [List.mem_singleton.mp hnext]
      next hprecedes =>
          use front ++ [other], []
          simpa [hadjacent] using hprecedes

/-- After `k` steps the first `k` pairs are the stable sort of what they were. -/
theorem toList_fold_sink [Std.TransOrd K] (direction : Direction) (pairs : Pairs K V n)
    (k : Nat) (hk : k ≤ n) :
  (k.fold (fun i h sorted => sorted.sink direction i (by omega)) pairs).toList
    = direction.stableSort Prod.fst (pairs.toList.take k) ++ pairs.toList.drop k
  := by
  induction k with
  | zero => simp [Direction.stableSort]
  | succ k ih =>
      have hkn : k < pairs.toList.length := by simp; omega
      have hstep := ih (by omega)
      rw [List.drop_eq_getElem_cons hkn] at hstep
      obtain ⟨above, below, hfront, hsink, habove, hbelow⟩ :=
        exists_toList_sink direction hstep
          (by rw [(Direction.stableSort_perm _ _ _).length_eq, List.length_take]; omega) hk
      rw [Nat.fold_succ, hsink, List.take_succ_eq_append_getElem hkn]
      congr 1
      apply Direction.isStableSort_iff.mp
      apply IsStableSort.insert (direction.isRanking_admits Prod.fst)
      · apply Direction.isStableSort_iff.mpr hfront.symm
      · intro other hother
        simpa [Direction.admits] using habove other hother
      · intro other hother
        simpa [Direction.admits] using hbelow other hother

/-- Pairs sorted by insertion are the stable sort by their keys. -/
theorem toList_insertionSort [Std.TransOrd K] (direction : Direction) (pairs : Pairs K V n) :
  (pairs.insertionSort direction).toList = direction.stableSort Prod.fst pairs.toList
  := by
  have h := toList_fold_sink direction pairs n (Nat.le_refl n)
  rw [List.take_of_length_le (by simp), List.drop_of_length_le (by simp), List.append_nil] at h
  apply h

/-- A sort by insertion does nothing but exchange neighbours inside the columns, the latter of which
belongs strictly before the former.  It ends after as many exchanges as there are keys out of order,
and these are no more than the pairs of positions.  What it leaves is in order, with the pairs of
equal keys as they stood, and nothing else is: it is the stable sort by the keys. -/
theorem insertionSort_sorts_stably [Std.TransOrd K] (direction : Direction)
    (pairs : Pairs K V n) :
  let sorted := pairs.insertionSort direction
  let count := inversions direction.precedes pairs.keys.toList
  let inOrder (list : List (K × V)) := list.Pairwise fun a b => ¬ direction.precedes b.1 a.1
  let withKey (key : K) (list : List (K × V)) :=
    list.filter fun pair => compare pair.1 key = .eq
  pairs.Exchanges direction count sorted ∧ 2 * count ≤ n * (n - 1)
    ∧ sorted.toList.Perm pairs.toList
    ∧ inOrder sorted.toList
    ∧ (∀ key, withKey key sorted.toList = withKey key pairs.toList)
    ∧ ∀ list, inOrder list → (∀ key, withKey key list = withKey key pairs.toList) →
      list = sorted.toList
  := by
  intro sorted count inOrder withKey
  have hsorted : sorted.toList = direction.stableSort Prod.fst pairs.toList :=
    toList_insertionSort direction pairs
  have hadmits (list : List (K × V)) :
      inOrder list ↔ list.Pairwise fun a b => direction.admits a.1 b.1 := by
    simp [inOrder, Direction.admits]
  have hordered : inOrder sorted.toList := by
    rw [hadmits, hsorted]
    apply direction.pairwise_stableSort
  have hties (key : K) : withKey key sorted.toList = withKey key pairs.toList := by
    rw [hsorted]
    apply direction.filter_stableSort
  refine ⟨?_, ?_, insertionSort_perm direction pairs, hordered, hties, ?_⟩
  · obtain ⟨made, hmade⟩ := exists_exchanges_insertionSort direction pairs
    have hnone : inversions direction.precedes sorted.keys.toList = 0 := by
      apply inversions_of_pairwise
      rw [← map_fst_toList]
      apply List.pairwise_map.mpr hordered
    have hcount : count = made := by
      apply hmade.inversions_eq.trans
      rw [hnone, Nat.zero_add]
    rwa [hcount]
  · have hbound := two_mul_inversions_le direction.precedes pairs.keys.toList
    rwa [Vector.length_toList] at hbound
  · intro list hlist hsame
    apply eq_of_filter_tied (direction.isRanking_admits Prod.fst) ((hadmits list).mp hlist)
      ((hadmits _).mp hordered)
    intro pair
    have htied : tied (fun a b : K × V => direction.admits a.1 b.1) pair
        = fun other => decide (compare other.1 pair.1 = .eq) := by
      funext other
      rw [direction.tied_admits Prod.fst]
      apply decide_eq_decide.mpr Std.OrientedCmp.eq_comm
    rw [htied]
    apply (hsame pair.1).trans (hties pair.1).symm

/-- Negative keys are sorted by insertion like others, and the pairs of equal keys keep their order,
from the greatest key down too. -/
theorem insertionSort_negative_and_tied :
  let pairs : Pairs Int32 String 4 := ⟨#v[-1, 5, -7, 5], #v["a", "b", "c", "d"]⟩
  let sorted : Pairs Int32 String 4 := ⟨#v[5, 5, -1, -7], #v["b", "d", "a", "c"]⟩
  pairs.insertionSort .descending = sorted ∧ pairs.Exchanges .descending 3 sorted
  := by
  intro pairs sorted
  have hsorted : pairs.insertionSort .descending = sorted := by decide
  have hcount : inversions Direction.descending.precedes pairs.keys.toList = 3 := by decide
  obtain ⟨hexchanges, -⟩ := insertionSort_sorts_stably .descending pairs
  rw [hsorted, hcount] at hexchanges
  exact ⟨hsorted, hexchanges⟩

end Pairs

end LockstepSort
