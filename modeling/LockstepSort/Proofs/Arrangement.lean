import LockstepSort.Proofs.Digits
import LockstepSort.Proofs.Insertion
import LockstepSort.Proofs.Partition

/-!
# The order in which pairs are left

Pairs that are not split are left as they are, or sorted by insertion or stably by their
digits.  Pairs that are split are left in the order of the two sides, each in the order in
which it is left itself, with the pivot in between.
-/

namespace LockstepSort.Pairs

variable {K V : Type} {n : Nat}

/-- The pair at a position. -/
def get (pairs : Pairs K V n) (i : Fin n) : K × V := (pairs.keys.get i, pairs.values.get i)

/-- The pairs before a position. -/
def front (pairs : Pairs K V n) (i : Fin n) : Pairs K V i :=
  pairs.slice ((Window.whole n).before i)

/-- The pairs behind a position. -/
def back (pairs : Pairs K V n) (i : Fin n) : Pairs K V (n - i - 1) :=
  pairs.slice ((Window.whole n).after i)

theorem toList_front (pairs : Pairs K V n) (i : Fin n) :
  (pairs.front i).toList = pairs.toList.take i
  := toList_slice pairs _

theorem toList_back (pairs : Pairs K V n) (i : Fin n) :
  (pairs.back i).toList = pairs.toList.drop (i + 1)
  := by
  apply (toList_slice pairs _).trans
  simp only [Window.after, Window.whole, Nat.zero_add]
  apply List.take_of_length_le
  rw [List.length_drop, length_toList]
  omega

/-- A position cuts the pairs into those before it, the one at it and those behind it. -/
theorem toList_eq_front_back (pairs : Pairs K V n) (i : Fin n) :
  pairs.toList = (pairs.front i).toList ++ pairs.get i :: (pairs.back i).toList
  := by
  have hi : i < pairs.toList.length := by simp
  have hget : pairs.get i = pairs.toList[i] := (getElem_toList pairs i.isLt hi).symm
  rw [toList_front, toList_back, hget]
  simp

/-- Where no two pairs are alike, a pair has one position only. -/
theorem get_injective {pairs : Pairs K V n} (hnodup : pairs.toList.Nodup) {i j : Fin n}
    (h : pairs.get i = pairs.get j) :
  i = j
  := by
  have hi : i < pairs.toList.length := by simp
  have hj : j < pairs.toList.length := by simp
  have hget : pairs.toList[i.val]? = pairs.toList[j.val]? := by
    rw [List.getElem?_eq_getElem hi, List.getElem?_eq_getElem hj, getElem_toList pairs i.isLt,
      getElem_toList pairs j.isLt]
    apply congrArg some h
  apply Fin.ext
  apply (List.getElem?_inj hi hnodup).mp hget

theorem toList_slice_before (pairs : Pairs K V n) (w : Window n) (pivot : Fin w.length) :
  (pairs.slice (w.before pivot)).toList = ((pairs.slice w).front pivot).toList
  := by
  rw [toList_front, toList_slice, toList_slice, List.take_take,
    Nat.min_eq_left (Nat.le_of_lt pivot.isLt)]
  rfl

theorem toList_slice_after (pairs : Pairs K V n) (w : Window n) (pivot : Fin w.length) :
  (pairs.slice (w.after pivot)).toList = ((pairs.slice w).back pivot).toList
  := by
  rw [toList_back, toList_slice, toList_slice, List.drop_take, List.drop_drop]
  rfl

theorem get_swap (pairs : Pairs K V n) (i j k : Fin n) :
  (pairs.swap i j).get k
    = if k = i then pairs.get j else if k = j then pairs.get i else pairs.get k
  := by
  simp only [Fin.ext_iff]
  apply Prod.ext
  · apply (getElem_keys_swap pairs i j k.isLt).trans
    split_ifs <;> rfl
  · apply (getElem_values_swap pairs i j k.isLt).trans
    split_ifs <;> rfl

theorem get_swap_right (pairs : Pairs K V n) (i j : Fin n) :
  (pairs.swap i j).get j = pairs.get i
  := by
  rw [get_swap, if_pos rfl]
  split_ifs with h
  · rw [h]
  · rfl

/-! ### Parted pairs -/

section

variable [Ord K] {direction : Direction} {pairs : Pairs K V n} {pivot : Fin n}

/-- The scan leaves the first pair where it is. -/
theorem get_gather {key : K} {i j : Nat} (hij : i < j) (hj : j ≤ n) (h : 0 < n) :
  (pairs.gather direction key i j hij hj).1.get ⟨0, h⟩ = pairs.get ⟨0, h⟩
  := by
  induction pairs, i, j, hij, hj using gather.induct direction key with
  | case1 pairs i j hij hj hlt hkey ih =>
      rw [gather, dif_pos hlt, if_pos hkey, ih, get_swap, if_neg, if_neg]
      · simp [Fin.ext_iff]
        omega
      · simp [Fin.ext_iff]
  | case2 pairs i j hij hj hlt hkey ih => rw [gather, dif_pos hlt, if_neg hkey, ih]
  | case3 pairs i j hij hj hlt => rw [gather, dif_neg hlt]

/-- The pair that is chosen for the pivot is the one that a split puts there. -/
theorem get_partition (direction : Direction) (pairs : Pairs K V n) (h : 0 < n) :
  (pairs.partition direction h).1.get (pairs.partition direction h).2
    = pairs.get (pairs.pivotPosition h)
  := by
  simp only [partition]
  rw [get_swap_right, get_gather]
  rw [get_swap, if_pos rfl]

/-- Pairs are parted if those before the pivot precede it and none of those behind it does. -/
theorem parted_iff :
  Parted direction pairs pivot
    ↔ (∀ pair ∈ (pairs.front pivot).toList, direction.precedes pair.1 (pairs.get pivot).1)
      ∧ ∀ pair ∈ (pairs.back pivot).toList, ¬ direction.precedes pair.1 (pairs.get pivot).1
  := by
  simp only [toList_front, toList_back, List.mem_take_iff_getElem, List.mem_drop_iff_getElem]
  constructor
  · intro h
    constructor
    · rintro pair ⟨k, hk, rfl⟩
      have hkn : k < n := by omega
      rw [getElem_toList pairs hkn]
      apply h.before k hkn (by omega)
    · rintro pair ⟨k, hk, rfl⟩
      have hkn : pivot + 1 + k < n := by
        rw [length_toList] at hk
        omega
      rw [getElem_toList pairs hkn]
      apply h.after _ hkn
      omega
  · rintro ⟨hbefore, hafter⟩
    constructor
    · intro k hk hkp
      apply hbefore (pairs.keys[k], pairs.values[k])
      use k, (by rw [length_toList]; omega)
      apply getElem_toList pairs hk
    · intro k hk hkp
      apply hafter (pairs.keys[k], pairs.values[k])
      use k - (pivot + 1), (by rw [length_toList]; omega)
      have hposition : pivot + 1 + (k - (pivot + 1)) = k := by omega
      simp only [hposition]
      apply getElem_toList pairs hk

/-- Of parted pairs, those before the pivot may stand before it, and those behind it
behind it. -/
theorem Parted.admits [Std.TransOrd K] (h : Parted direction pairs pivot) :
  (∀ pair ∈ (pairs.front pivot).toList, direction.admits pair.1 (pairs.get pivot).1)
    ∧ ∀ pair ∈ (pairs.back pivot).toList, direction.admits (pairs.get pivot).1 pair.1
  := by
  obtain ⟨hbefore, hafter⟩ := parted_iff.mp h
  constructor
  · intro pair hpair
    apply Direction.admits_of_precedes (hbefore pair hpair)
  · intro pair hpair
    rw [Direction.admits, Bool.not_eq_true', ← Bool.not_eq_true]
    apply hafter pair hpair

/-- Pairs stay parted when those before the pivot and those behind it change places among
themselves. -/
theorem Parted.of_perm
    {pairs' : Pairs K V n} {before behind : List (K × V)} (h : Parted direction pairs pivot)
    (hlist : pairs'.toList = before ++ pairs.get pivot :: behind)
    (hbefore : before.Perm (pairs.front pivot).toList)
    (hbehind : behind.Perm (pairs.back pivot).toList) :
  Parted direction pairs' pivot
  := by
  have hlength : before.length = pivot := by rw [hbefore.length_eq, length_toList]
  rw [toList_eq_front_back pairs' pivot] at hlist
  obtain ⟨hfront, hrest⟩ := List.append_inj hlist (by rw [length_toList, hlength])
  obtain ⟨hget, hback⟩ := List.cons.inj hrest
  obtain ⟨hprecede, hfollow⟩ := parted_iff.mp h
  apply parted_iff.mpr
  rw [hfront, hget, hback]
  constructor
  · intro pair hpair
    apply hprecede pair (hbefore.mem_iff.mp hpair)
  · intro pair hpair
    apply hfollow pair (hbehind.mem_iff.mp hpair)

/-! ### Pairs in which no key precedes another one -/

/-- No key precedes another one. -/
def Tied (direction : Direction) {n : Nat} (pairs : Pairs K V n) : Prop :=
  ∀ a ∈ pairs.toList, ∀ b ∈ pairs.toList, ¬ direction.precedes a.1 b.1

/-- Some of the pairs that are tied are so among themselves. -/
theorem Tied.of_subset {length : Nat} {part : Pairs K V length} (h : pairs.Tied direction)
    (hsubset : part.toList ⊆ pairs.toList) :
  part.Tied direction
  := by
  intro a ha b hb
  apply h a (hsubset ha) b (hsubset hb)

/-- Where no key precedes another one, a pivot has no pair before it. -/
theorem Tied.pivot_eq_zero (h : pairs.Tied direction) (hparted : Parted direction pairs pivot) :
  pivot.val = 0
  := by
  obtain ⟨hbefore, -⟩ := parted_iff.mp hparted
  have hlist := pairs.toList_eq_front_back pivot
  have hfront : (pairs.front pivot).toList = [] := by
    apply List.eq_nil_iff_forall_not_mem.mpr
    intro a ha
    apply h a _ (pairs.get pivot) _ (hbefore a ha)
    · rw [hlist]
      apply List.mem_append_left _ ha
    · rw [hlist]
      apply List.mem_append_right _ List.mem_cons_self
  rw [← length_toList (pairs.front pivot), hfront]
  rfl

end

/-! ### Arrangements -/

variable [DigitKey K]

/-- The pairs in the order in which they are left under a strategy. -/
def arranged (strategy : Strategy) {n : Nat} (pairs : Pairs K V n) : List (K × V) :=
  match h : strategy.action n with
  | .leave => pairs.toList
  | .insertion => (pairs.insertionSort strategy.direction).toList
  | .radix =>
    strategy.direction.stableSort (fun pair => digitValue (strategy.span.passes K) pair.1)
      pairs.toList
  | .split =>
    let (parted, pivot) := pairs.partition strategy.direction
      (Nat.lt_of_succ_lt (Strategy.one_lt_of_action_split h))
    (parted.front pivot).arranged strategy
      ++ parted.get pivot :: (parted.back pivot).arranged strategy
termination_by n

variable {strategy : Strategy} {pairs : Pairs K V n}

theorem arranged_of_leave (h : strategy.action n = .leave) :
  pairs.arranged strategy = pairs.toList
  := by
  rw [arranged]
  split
  case h_1 => rfl
  all_goals simp_all

theorem arranged_of_insertion (h : strategy.action n = .insertion) :
  pairs.arranged strategy = (pairs.insertionSort strategy.direction).toList
  := by
  rw [arranged]
  split
  case h_2 => rfl
  all_goals simp_all

theorem arranged_of_radix (h : strategy.action n = .radix) :
  pairs.arranged strategy
    = strategy.direction.stableSort (fun pair => digitValue (strategy.span.passes K) pair.1)
        pairs.toList
  := by
  rw [arranged]
  split
  case h_3 => rfl
  all_goals simp_all

theorem arranged_of_split
    {parted : Pairs K V n} {pivot : Fin n} {nonempty : 0 < n}
    (h : strategy.action n = .split)
    (hparted : pairs.partition strategy.direction nonempty = (parted, pivot)) :
  pairs.arranged strategy
    = (parted.front pivot).arranged strategy
        ++ parted.get pivot :: (parted.back pivot).arranged strategy
  := by
  rw [arranged]
  split
  case h_4 => rw [hparted]
  all_goals simp_all

/-- An arrangement holds the pairs that it arranges. -/
theorem arranged_perm (strategy : Strategy) (pairs : Pairs K V n) :
  (pairs.arranged strategy).Perm pairs.toList
  := by
  induction n, pairs using arranged.induct (K := K) strategy with
  | case1 n pairs h =>
      rw [arranged_of_leave h]
  | case2 n pairs h =>
      rw [arranged_of_insertion h]
      apply insertionSort_perm
  | case3 n pairs h =>
      rw [arranged_of_radix h]
      apply Direction.stableSort_perm
  | case4 n pairs h parted pivot hparted ihfront ihback =>
      obtain ⟨-, -, hperm⟩ := partition_spec strategy.direction pairs
        (Nat.lt_of_succ_lt (Strategy.one_lt_of_action_split h))
      rw [hparted, parted.toList_eq_front_back pivot] at hperm
      rw [arranged_of_split h hparted]
      apply List.Perm.trans _ hperm
      apply ihfront.append (ihback.cons _)

@[simp]
theorem length_arranged (strategy : Strategy) (pairs : Pairs K V n) :
  (pairs.arranged strategy).length = n
  := by
  rw [(arranged_perm strategy pairs).length_eq, length_toList]

/-! ### Order -/

/-- An arrangement is in the order of the keys, if no pairs are sorted by digits that do not
follow their keys. -/
theorem pairwise_arranged [Std.TransOrd K]
    (hdigits : ∀ length, strategy.action length = .radix →
      strategy.span.Follows (pairs.toList.map Prod.fst)) :
  (pairs.arranged strategy).Pairwise fun a b => strategy.direction.admits a.1 b.1
  := by
  induction n, pairs using arranged.induct (K := K) strategy with
  | case1 n pairs h =>
      rw [arranged_of_leave h]
      apply List.pairwise_iff_getElem.mpr
      intro i j hi hj hij
      have hn := Strategy.le_one_of_action_leave h
      rw [length_toList] at hj
      omega
  | case2 n pairs h =>
      rw [arranged_of_insertion h, toList_insertionSort]
      apply Direction.pairwise_stableSort
  | case3 n pairs h =>
      rw [arranged_of_radix h]
      have hpairwise := strategy.direction.pairwise_stableSort
        (fun pair : K × V => digitValue (strategy.span.passes K) pair.1) pairs.toList
      apply hpairwise.imp_of_mem
      intro a b ha hb hab
      have hmem {pair : K × V} (hpair : pair ∈ strategy.direction.stableSort
          (fun pair => digitValue (strategy.span.passes K) pair.1) pairs.toList) :
          pair.1 ∈ pairs.toList.map Prod.fst := by
        apply List.mem_map_of_mem
        apply (Direction.stableSort_perm _ _ _).mem_iff.mp hpair
      apply (hdigits n h).admits (hmem ha) (hmem hb) hab
  | case4 n pairs h parted pivot hparted ihfront ihback =>
      rw [arranged_of_split h hparted]
      obtain ⟨hparts, -, hperm⟩ := partition_spec strategy.direction pairs
        (Nat.lt_of_succ_lt (Strategy.one_lt_of_action_split h))
      rw [hparted] at hparts hperm
      obtain ⟨hbefore, hbehind⟩ := hparts.admits
      have hfront {pair : K × V} (hpair : pair ∈ (parted.front pivot).arranged strategy) :=
        hbefore pair ((arranged_perm _ _).mem_iff.mp hpair)
      have hback {pair : K × V} (hpair : pair ∈ (parted.back pivot).arranged strategy) :=
        hbehind pair ((arranged_perm _ _).mem_iff.mp hpair)
      apply List.pairwise_append.mpr
      refine ⟨ihfront ?_, List.pairwise_cons.mpr ⟨fun pair => hback, ihback ?_⟩, ?_⟩
      · intro length hradix
        apply (hdigits length hradix).subset
        apply List.map_subset
        rw [toList_front]
        apply List.Subset.trans (List.take_subset _ _) hperm.subset
      · intro length hradix
        apply (hdigits length hradix).subset
        apply List.map_subset
        rw [toList_back]
        apply List.Subset.trans (List.drop_subset _ _) hperm.subset
      · intro a ha b hb
        obtain rfl | hb := List.mem_cons.mp hb
        · apply hfront ha
        · apply (strategy.direction.isRanking_admits Prod.fst).trans _ _ _ (hfront ha) (hback hb)

end LockstepSort.Pairs
