import LockstepSort.Direction
import Mathlib.Data.List.Basic
import Mathlib.Data.List.Forall2
import Mathlib.Data.List.Pairwise

/-!
# Stable sorts

A list is the stable sort of another if its elements are in order, and those that tie with
any one element stand in it as they stand in the other.  There is exactly one such list,
which the merge sort of the standard library computes.  A stable sort by one order, sorted
stably by a second one, is the stable sort by the second order with ties broken by the first.
-/

namespace LockstepSort

section

variable {α : Type} {le le' : α → α → Bool} {list middle sorted sorted' : List α}

/-- An order in which any two elements compare.  Different elements may tie. -/
structure IsRanking (le : α → α → Bool) : Prop where
  trans (a b c : α) : le a b → le b c → le a c
  total (a b : α) : le a b || le b a

/-- Whether either of two elements may stand before the other. -/
def tied (le : α → α → Bool) (a b : α) : Bool := le a b && le b a

/-- The order by `le`, in which ties are broken by `le'`. -/
def thenBy (le le' : α → α → Bool) (a b : α) : Bool := le a b && (!le b a || le' a b)

/-- `sorted` holds the elements of `list` in order, with ties as they stand in `list`. -/
structure IsStableSort (le : α → α → Bool) (list sorted : List α) : Prop where
  ordered : sorted.Pairwise fun a b => le a b
  ties (a : α) : sorted.filter (tied le a) = list.filter (tied le a)

theorem IsRanking.refl (hle : IsRanking le) (a : α) :
  le a a
  := by
  simpa using hle.total a a

theorem IsRanking.tied_self (hle : IsRanking le) (a : α) :
  tied le a a
  := by
  simp [tied, hle.refl]

theorem tied_comm (le : α → α → Bool) (a b : α) :
  tied le a b = tied le b a
  := Bool.and_comm _ _

theorem IsRanking.tied_trans {a b c : α} (hle : IsRanking le) (hab : tied le a b)
    (hbc : tied le b c) :
  tied le a c
  := by
  simp only [tied, Bool.and_eq_true] at hab hbc ⊢
  exact ⟨hle.trans a b c hab.1 hbc.1, hle.trans c b a hbc.2 hab.2⟩

/-- Elements that tie with one element tie with one another. -/
theorem IsRanking.pairwise_filter_tied (hle : IsRanking le) (list : List α) (a : α) :
  (list.filter (tied le a)).Pairwise fun b c => le b c
  := by
  apply List.pairwise_of_forall_mem_list
  intro b hb c hc
  have hba := (List.mem_filter.mp hb).2
  have hac := (List.mem_filter.mp hc).2
  simp only [tied, Bool.and_eq_true] at hba hac
  apply hle.trans b a c hba.2 hac.1

theorem tied_thenBy (a b : α) :
  tied (thenBy le le') a b = (tied le a b && tied le' a b)
  := by
  simp only [tied, thenBy]
  cases le a b <;> cases le b a <;> simp

/-! ### Uniqueness -/

/-- The first element of a list in order may stand before all its elements. -/
private theorem le_of_mem_cons (hle : IsRanking le) {a b : α}
    (h : (a :: sorted).Pairwise fun c d => le c d) (hb : b ∈ a :: sorted) :
  le a b
  := by
  obtain rfl | hb := List.mem_cons.mp hb
  · apply hle.refl
  · apply List.rel_of_pairwise_cons h hb

/-- An element that ties with some element of a list in order may stand behind the first. -/
private theorem le_of_countP (hle : IsRanking le) {a b : α}
    (h : (a :: sorted).Pairwise fun c d => le c d)
    (hcount : (a :: sorted).countP (tied le b) = (b :: sorted').countP (tied le b)) :
  le a b
  := by
  have hpos : 0 < (a :: sorted).countP (tied le b) := by
    rw [hcount, List.countP_cons_of_pos (hle.tied_self b)]
    apply Nat.succ_pos
  obtain ⟨c, hc, hbc⟩ := List.countP_pos_iff.mp hpos
  simp only [tied, Bool.and_eq_true] at hbc
  apply hle.trans a c b (le_of_mem_cons hle h hc) hbc.2

/-- Two lists in order with equally many ties with any one element start with ties. -/
private theorem tied_of_countP (hle : IsRanking le) {a b : α}
    (h : (a :: sorted).Pairwise fun c d => le c d)
    (h' : (b :: sorted').Pairwise fun c d => le c d)
    (hcount : ∀ c, (a :: sorted).countP (tied le c) = (b :: sorted').countP (tied le c)) :
  tied le a b
  := by
  have hab := le_of_countP hle h (hcount b)
  have hba := le_of_countP hle h' (hcount a).symm
  simp [tied, hab, hba]

/-- A list in order is determined by its ties. -/
theorem eq_of_filter_tied
    (hle : IsRanking le) (h : sorted.Pairwise fun a b => le a b)
    (h' : sorted'.Pairwise fun a b => le a b)
    (hties : ∀ a, sorted.filter (tied le a) = sorted'.filter (tied le a)) :
  sorted = sorted'
  := by
  induction sorted generalizing sorted' with
  | nil =>
      cases sorted' with
      | nil => rfl
      | cons b sorted' => simpa [hle.tied_self] using hties b
  | cons a sorted ih =>
      cases sorted' with
      | nil => simpa [hle.tied_self] using hties a
      | cons b sorted' =>
          have hab : tied le a b := by
            apply tied_of_countP hle h h'
            intro c
            rw [List.countP_eq_length_filter, List.countP_eq_length_filter, hties]
          have hfirst := hties a
          rw [List.filter_cons_of_pos (hle.tied_self a), List.filter_cons_of_pos hab] at hfirst
          obtain rfl := (List.cons.inj hfirst).1
          rw [ih h.of_cons h'.of_cons]
          intro c
          have hc := hties c
          by_cases hca : tied le c a
          · rw [List.filter_cons_of_pos hca, List.filter_cons_of_pos hca] at hc
            apply (List.cons.inj hc).2
          · rwa [List.filter_cons_of_neg hca, List.filter_cons_of_neg hca] at hc

/-- Two lists in order with equally many ties with any one element tie element by element. -/
theorem forall₂_tied
    (hle : IsRanking le) (h : sorted.Pairwise fun a b => le a b)
    (h' : sorted'.Pairwise fun a b => le a b)
    (hcount : ∀ a, sorted.countP (tied le a) = sorted'.countP (tied le a)) :
  List.Forall₂ (fun a b => tied le a b) sorted sorted'
  := by
  induction sorted generalizing sorted' with
  | nil =>
      cases sorted' with
      | nil => apply List.Forall₂.nil
      | cons b sorted' => simpa [hle.tied_self] using hcount b
  | cons a sorted ih =>
      cases sorted' with
      | nil => simpa [hle.tied_self] using hcount a
      | cons b sorted' =>
          have hab := tied_of_countP hle h h' hcount
          apply List.forall₂_cons.mpr
          refine ⟨hab, ih h.of_cons h'.of_cons ?_⟩
          intro c
          have hcab : tied le c a = tied le c b := by
            rw [Bool.eq_iff_iff]
            constructor
            · intro hca
              apply hle.tied_trans hca hab
            · intro hcb
              rw [tied_comm] at hab
              apply hle.tied_trans hcb hab
          simpa [List.countP_cons, hcab] using hcount c

namespace IsStableSort

theorem unique
    (hle : IsRanking le) (h : IsStableSort le list sorted) (h' : IsStableSort le list sorted') :
  sorted = sorted'
  := by
  apply eq_of_filter_tied hle h.ordered h'.ordered
  intro a
  rw [h.ties, h'.ties]

theorem mergeSort (hle : IsRanking le) (list : List α) :
  IsStableSort le list (list.mergeSort le)
  where
  ordered := List.pairwise_mergeSort hle.trans hle.total list
  ties a := by
    have hsub := List.sublist_mergeSort hle.trans hle.total
      (hle.pairwise_filter_tied list a) List.filter_sublist
    have hfilter := hsub.filter (tied le a)
    simp only [List.filter_filter, Bool.and_self] at hfilter
    symm
    apply hfilter.eq_of_length
    symm
    apply ((List.mergeSort_perm list le).filter (tied le a)).length_eq

/-- The stable sort of a list is its merge sort. -/
theorem iff_eq_mergeSort (hle : IsRanking le) :
  IsStableSort le list sorted ↔ sorted = list.mergeSort le
  := by
  constructor
  · intro h
    apply h.unique hle (mergeSort hle list)
  · rintro rfl
    apply mergeSort hle list

/-! ### One more element -/

/-- An element put in behind one that may stand before it, and before none that may, keeps a
list in order. -/
private theorem pairwise_insert
    {front back : List α} {a : α} (hle : IsRanking le)
    (h : (front ++ back).Pairwise fun b c => le b c) (hfront : ∀ b ∈ front.getLast?, le b a)
    (hback : ∀ b ∈ back, ¬ le b a) :
  (front ++ a :: back).Pairwise fun b c => le b c
  := by
  obtain ⟨hordered, hordered', hacross⟩ := List.pairwise_append.mp h
  apply List.pairwise_append.mpr
  refine ⟨hordered, List.pairwise_cons.mpr ⟨?_, hordered'⟩, ?_⟩
  · intro b hb
    have htotal := hle.total a b
    simpa [hback b hb] using htotal
  · intro b hb c hc
    obtain rfl | hc := List.mem_cons.mp hc
    · have hlast := hfront _ (List.getLast_mem_getLast? (List.ne_nil_of_mem hb))
      apply hle.trans _ _ _ _ hlast
      apply hordered.rel_getLast_of_rel_getLast_getLast hb
      apply hle.refl
    · apply hacross b hb c hc

/-- The next element of a list is put in behind those that may stand before it. -/
theorem insert
    {front back : List α} {a : α} (hle : IsRanking le)
    (h : IsStableSort le list (front ++ back)) (hfront : ∀ b ∈ front.getLast?, le b a)
    (hback : ∀ b ∈ back, ¬ le b a) :
  IsStableSort le (list ++ [a]) (front ++ a :: back)
  where
  ordered := pairwise_insert hle h.ordered hfront hback
  ties b := by
    have hties := h.ties b
    rw [List.filter_append] at hties
    rw [List.filter_append, List.filter_append, ← hties, List.append_assoc]
    congr 1
    by_cases hba : tied le b a
    · have hnone : back.filter (tied le b) = [] := by
        apply List.filter_eq_nil_iff.mpr
        intro c hc hbc
        simp only [tied, Bool.and_eq_true] at hba hbc
        apply hback c hc
        apply hle.trans c b a hbc.2 hba.1
      rw [List.filter_cons_of_pos hba, hnone, List.nil_append, List.filter_cons_of_pos hba,
        List.filter_nil]
    · rw [List.filter_cons_of_neg hba, List.filter_cons_of_neg hba, List.filter_nil,
        List.append_nil]

/-! ### Ties broken by another order -/

/-- A stable sort by `le'`, sorted stably by `le`, is the stable sort by `le` in which ties
are broken by `le'`. -/
theorem thenBy
    (hle : IsRanking le) (h' : IsStableSort le' list middle) (h : IsStableSort le middle sorted) :
  IsStableSort (LockstepSort.thenBy le le') list sorted
  where
  ordered := by
    apply List.pairwise_iff_forall_sublist.mpr
    intro a b hsub
    have hab := List.pairwise_iff_forall_sublist.mp h.ordered hsub
    by_cases hba : le b a
    · have hfilter := hsub.filter (tied le a)
      rw [h.ties, List.filter_cons_of_pos (hle.tied_self a),
        List.filter_cons_of_pos (by simp [tied, hab, hba]), List.filter_nil] at hfilter
      have hab' := List.pairwise_iff_forall_sublist.mp h'.ordered
        (hfilter.trans List.filter_sublist)
      simp [LockstepSort.thenBy, hab, hab']
    · simp [LockstepSort.thenBy, hab, hba]
  ties a := by
    have hsplit (xs : List α) :
        xs.filter (tied (LockstepSort.thenBy le le') a)
          = (xs.filter (tied le' a)).filter (tied le a) := by
      rw [List.filter_filter]
      apply List.filter_congr
      intro b _
      apply tied_thenBy
    calc sorted.filter (tied (LockstepSort.thenBy le le') a)
      _ = (sorted.filter (tied le a)).filter (tied le' a) := by rw [hsplit, List.filter_comm]
      _ = (middle.filter (tied le' a)).filter (tied le a) := by rw [h.ties, List.filter_comm]
      _ = list.filter (tied (LockstepSort.thenBy le le') a) := by rw [h'.ties, hsplit]

end IsStableSort

/-! ### Lists with the same ties -/

section

variable {list' list'' : List α}

/-- Two lists hold the elements that tie with any one element in the same order. -/
def SameTies (le : α → α → Bool) (list list' : List α) : Prop :=
  ∀ a, list'.filter (tied le a) = list.filter (tied le a)

namespace SameTies

theorem refl (le : α → α → Bool) (list : List α) :
  SameTies le list list
  := fun _ => rfl

theorem trans (h : SameTies le list list') (h' : SameTies le list' list'') :
  SameTies le list list''
  := fun a => (h' a).trans (h a)

/-- Lists with the same ties have the same elements. -/
theorem mem_iff {a : α} (hle : IsRanking le) (h : SameTies le list list') :
  a ∈ list' ↔ a ∈ list
  := by
  have hfilter (xs : List α) : a ∈ xs ↔ a ∈ xs.filter (tied le a) := by
    simp [List.mem_filter, hle.tied_self]
  rw [hfilter list', h a, ← hfilter]

theorem append (h : SameTies le list list') (front back : List α) :
  SameTies le (front ++ list ++ back) (front ++ list' ++ back)
  := by
  intro a
  simp only [List.filter_append, h a]

end SameTies

namespace IsStableSort

theorem sameTies (h : IsStableSort le list sorted) :
  SameTies le list sorted
  := h.ties

/-- Lists with the same ties have the same stable sort. -/
theorem of_sameTies (h : IsStableSort le list sorted) (hties : SameTies le list list') :
  IsStableSort le list' sorted
  where
  ordered := h.ordered
  ties a := (h.ties a).trans (hties a).symm

/-- A stable sort by one order keeps the ties of another one, if what ties in that order ties in the
first one too. -/
theorem sameTies_of_tied (hle : IsRanking le) (hle' : IsRanking le')
    (h : IsStableSort le' list sorted)
    (hties : ∀ a ∈ list, ∀ b ∈ list, tied le a b → tied le' a b) :
  SameTies le list sorted
  := by
  intro a
  have hmem (b : α) : b ∈ sorted ↔ b ∈ list := h.sameTies.mem_iff hle'
  by_cases hsome : ∃ b ∈ list, tied le a b
  · -- All that ties with `a` ties with one of the elements, and so in the order of the sort too.
    obtain ⟨b, hb, hab⟩ := hsome
    have hfilter (xs : List α) (hxs : ∀ c ∈ xs, c ∈ list) :
        xs.filter (tied le a) = (xs.filter (tied le' b)).filter (tied le a) := by
      rw [List.filter_filter]
      apply List.filter_congr
      intro c hc
      cases hac : tied le a c with
      | false => rfl
      | true =>
          rw [tied_comm] at hab
          rw [hties b hb c (hxs c hc) (hle.tied_trans hab hac), Bool.true_and]
    rw [hfilter sorted fun c hc => (hmem c).mp hc, h.ties, ← hfilter list fun c hc => hc]
  · have hnone (xs : List α) (hxs : ∀ c ∈ xs, c ∈ list) : xs.filter (tied le a) = [] := by
      apply List.filter_eq_nil_iff.mpr
      intro c hc hac
      apply hsome ⟨c, hxs c hc, hac⟩
    rw [hnone sorted fun c hc => (hmem c).mp hc, hnone list fun c hc => hc]

end IsStableSort

end

end

/-! ### Numbers of two parts -/

/-- Numbers with a high and a low part compare by the high part first. -/
theorem compare_add_mul {base low low' : Nat} (high high' : Nat) (hlow : low < base)
    (hlow' : low' < base) :
  compare (low + high * base) (low' + high' * base)
    = (compare high high').then (compare low low')
  := by
  obtain h | rfl | h := Nat.lt_trichotomy high high'
  · have := Nat.mul_le_mul_right base h
    rw [Nat.succ_mul] at this
    rw [Nat.compare_eq_lt.mpr h]
    apply Nat.compare_eq_lt.mpr
    omega
  · rw [Nat.compare_eq_eq.mpr rfl]
    simp only [Nat.compare_eq_ite_lt, Nat.add_lt_add_iff_right, Ordering.then]
  · have := Nat.mul_le_mul_right base h
    rw [Nat.succ_mul] at this
    rw [Nat.compare_eq_gt.mpr h]
    apply Nat.compare_eq_gt.mpr
    omega

/-! ### Orders by rank -/

namespace Direction

variable {α K : Type} [Ord K] {list sorted : List α}

/-- Whether `a` may stand before `b`, which is so unless `b` precedes it. -/
def admits (direction : Direction) (a b : K) : Bool :=
  !direction.precedes b a

/-- The elements of a list in the order of their ranks, with ties as they stand in it. -/
def stableSort (direction : Direction) (rank : α → K) (list : List α) : List α :=
  list.mergeSort fun a b => direction.admits (rank a) (rank b)

theorem admits_eq_isLE [Std.OrientedOrd K] (direction : Direction) (a b : K) :
  direction.admits a b
    = match direction with
      | ascending => (compare a b).isLE
      | descending => (compare b a).isLE
  := by
  cases direction with
  | ascending =>
      have hswap : compare b a = (compare a b).swap := Std.OrientedCmp.eq_swap
      rw [admits, precedes, hswap]
      cases compare a b <;> rfl
  | descending =>
      rw [admits, precedes]
      cases compare b a <;> rfl

theorem isRanking_admits [Std.TransOrd K] (direction : Direction) (rank : α → K) :
  IsRanking fun a b => direction.admits (rank a) (rank b)
  where
  trans a b c := by
    simp only [admits_eq_isLE]
    cases direction with
    | ascending => apply Std.TransCmp.isLE_trans
    | descending =>
        intro hba hcb
        apply Std.TransCmp.isLE_trans hcb hba
  total a b := by
    have hswap : compare (rank b) (rank a) = (compare (rank a) (rank b)).swap :=
      Std.OrientedCmp.eq_swap
    simp only [admits_eq_isLE, hswap]
    cases direction <;> cases compare (rank a) (rank b) <;> rfl

/-- Of two equal keys, neither belongs strictly before the other. -/
theorem not_precedes_of_eq {direction : Direction} {a b : K} (h : compare a b = .eq) :
  ¬ direction.precedes a b
  := by
  cases direction <;> simp [precedes, h]

/-- No key precedes itself. -/
theorem not_precedes_self [Std.ReflOrd K] (direction : Direction) (key : K) :
  ¬ direction.precedes key key
  := not_precedes_of_eq Std.ReflCmp.compare_self

theorem admits_of_precedes [Std.OrientedOrd K] {direction : Direction} {a b : K}
    (h : direction.precedes a b) :
  direction.admits a b
  := by
  have hswap : compare b a = (compare a b).swap := Std.OrientedCmp.eq_swap
  cases direction <;> simp only [admits, precedes, hswap] at h ⊢ <;>
    cases hab : compare a b <;> simp_all

/-- A key that precedes another one precedes all keys that do not. -/
theorem precedes_of_not_precedes [Std.TransOrd K] {direction : Direction} {a b c : K}
    (hac : direction.precedes a c) (hbc : ¬ direction.precedes b c) :
  direction.precedes a b
  := by
  by_contra hab
  have hba : direction.admits b a := by simpa [admits] using hab
  have hcb : direction.admits c b := by simpa [admits] using hbc
  have hca := (direction.isRanking_admits id).trans c b a hcb hba
  simp [admits, hac] at hca

/-- Keys that may stand before each other tie. -/
theorem compare_of_admits [Std.OrientedOrd K] {direction : Direction} {a b : K}
    (hab : direction.admits a b) (hba : direction.admits b a) :
  compare a b = .eq
  := by
  have hswap : compare b a = (compare a b).swap := Std.OrientedCmp.eq_swap
  cases direction <;> simp only [admits_eq_isLE, hswap] at hab hba <;>
    cases h : compare a b <;> simp_all

/-- The stable sort of a list by rank is its only stable sort in that order. -/
theorem isStableSort_iff [Std.TransOrd K] {direction : Direction} {rank : α → K} :
  IsStableSort (fun a b => direction.admits (rank a) (rank b)) list sorted
    ↔ sorted = direction.stableSort rank list
  := IsStableSort.iff_eq_mergeSort (direction.isRanking_admits rank)

theorem isStableSort_stableSort [Std.TransOrd K] (direction : Direction) (rank : α → K)
    (list : List α) :
  IsStableSort (fun a b => direction.admits (rank a) (rank b)) list
    (direction.stableSort rank list)
  := isStableSort_iff.mpr rfl

theorem stableSort_perm (direction : Direction) (rank : α → K) (list : List α) :
  (direction.stableSort rank list).Perm list
  := List.mergeSort_perm _ _

/-- A list in order is its own stable sort. -/
theorem stableSort_of_pairwise
    {direction : Direction} {rank : α → K}
    (h : list.Pairwise fun a b => direction.admits (rank a) (rank b)) :
  direction.stableSort rank list = list
  := List.mergeSort_of_pairwise h

/-- A list of at most one element is its own stable sort. -/
theorem stableSort_of_length_le_one {direction : Direction} {rank : α → K}
    (h : list.length ≤ 1) :
  direction.stableSort rank list = list
  := by
  apply stableSort_of_pairwise
  match list with
  | [] => apply List.Pairwise.nil
  | [a] => apply List.pairwise_singleton

theorem pairwise_stableSort [Std.TransOrd K] (direction : Direction) (rank : α → K)
    (list : List α) :
  (direction.stableSort rank list).Pairwise fun a b => direction.admits (rank a) (rank b)
  := (direction.isStableSort_stableSort rank list).ordered

/-- Two elements tie if their ranks are equal. -/
theorem tied_admits [Std.OrientedOrd K] (direction : Direction) (rank : α → K) (a b : α) :
  tied (fun c d => direction.admits (rank c) (rank d)) a b
    = decide (compare (rank a) (rank b) = .eq)
  := by
  have hswap : compare (rank b) (rank a) = (compare (rank a) (rank b)).swap :=
    Std.OrientedCmp.eq_swap
  simp only [tied, admits_eq_isLE, hswap]
  cases direction <;> cases compare (rank a) (rank b) <;> rfl

/-- Two orders of the same keys tie key by key. -/
theorem forall₂_of_perm [Std.TransOrd K] {direction : Direction} {keys keys' : List K}
    (hperm : keys.Perm keys') (h : keys.Pairwise fun a b => direction.admits a b)
    (h' : keys'.Pairwise fun a b => direction.admits a b) :
  List.Forall₂ (fun a b => compare a b = .eq) keys keys'
  := by
  have htied := forall₂_tied (direction.isRanking_admits id) h h' fun a => hperm.countP_eq _
  apply htied.imp
  intro a b hab
  rw [direction.tied_admits id] at hab
  apply of_decide_eq_true hab

/-- A stable sort keeps the elements of one rank as they stand. -/
theorem filter_stableSort [Std.TransOrd K]
    (direction : Direction) (rank : α → K) (list : List α) (key : K) :
  (direction.stableSort rank list).filter (fun a => compare (rank a) key = .eq)
    = list.filter (fun a => compare (rank a) key = .eq)
  := by
  by_cases h : ∃ a, compare (rank a) key = .eq
  · obtain ⟨a, ha⟩ := h
    have hties := (direction.isStableSort_stableSort rank list).ties a
    have htied : tied (fun c d => direction.admits (rank c) (rank d)) a
        = fun b => decide (compare (rank b) key = .eq) := by
      funext b
      rw [tied_admits, Std.TransCmp.congr_left ha]
      apply decide_eq_decide.mpr Std.OrientedCmp.eq_comm
    rwa [htied] at hties
  · have hnone : ∀ a, ¬ decide (compare (rank a) key = .eq) = true := by
      intro a ha
      apply h ⟨a, of_decide_eq_true ha⟩
    rw [List.filter_eq_nil_iff.mpr (fun a _ => hnone a),
      List.filter_eq_nil_iff.mpr (fun a _ => hnone a)]

section

variable {β L : Type} [Ord L] {direction : Direction} {rank : α → K}

/-- A map that keeps the order of the elements of a list takes its stable sort to that of its
image. -/
theorem map_stableSort {f : α → β} {rank' : β → L}
    (h : ∀ a ∈ list, ∀ b ∈ list,
      direction.admits (rank a) (rank b) = direction.admits (rank' (f a)) (rank' (f b))) :
  (direction.stableSort rank list).map f = direction.stableSort rank' (list.map f)
  := List.map_mergeSort h

/-- Two orders that agree on the elements of a list have the same stable sort of it. -/
theorem stableSort_congr {rank' : α → L}
    (h : ∀ a ∈ list, ∀ b ∈ list,
      direction.admits (rank a) (rank b) = direction.admits (rank' a) (rank' b)) :
  direction.stableSort rank list = direction.stableSort rank' list
  := by
  have hmap := map_stableSort (f := id) h
  rwa [List.map_id, List.map_id] at hmap

/-- Lists whose elements are related one by one have stable sorts whose elements are, if related
elements have the same rank. -/
theorem forall₂_stableSort {R : α → β → Prop} {list' : List β} {rank' : β → K}
    (h : List.Forall₂ R list list') (hrank : ∀ a b, R a b → rank' b = rank a) :
  List.Forall₂ R (direction.stableSort rank list) (direction.stableSort rank' list')
  := by
  obtain ⟨hlength, hrelated⟩ := List.forall₂_iff_zip.mp h
  -- Both sorts are images of one sort of the elements paired up.
  let both := list.zip list'
  let sorted := direction.stableSort (fun pair => rank pair.1) both
  have hfst : sorted.map Prod.fst = direction.stableSort rank list := by
    rw [← List.map_fst_zip (Nat.le_of_eq hlength)]
    apply map_stableSort
    intros
    rfl
  have hsnd : sorted.map Prod.snd = direction.stableSort rank' list' := by
    rw [← List.map_snd_zip (Nat.le_of_eq hlength.symm)]
    apply map_stableSort
    rintro ⟨a, a'⟩ ha ⟨b, b'⟩ hb
    simp only [hrank a a' (hrelated ha), hrank b b' (hrelated hb)]
  rw [← hfst, ← hsnd, List.forall₂_map_left_iff, List.forall₂_map_right_iff, List.forall₂_same]
  rintro ⟨a, a'⟩ hpair
  apply hrelated ((direction.stableSort_perm _ _).mem_iff.mp hpair)

end

/-! ### Orders by number -/

theorem admits_nat (direction : Direction) (a b : Nat) :
  direction.admits a b
    = match direction with
      | ascending => decide (a ≤ b)
      | descending => decide (b ≤ a)
  := by
  rw [admits_eq_isLE, Bool.eq_iff_iff]
  cases direction <;> simp only [Nat.isLE_compare, decide_eq_true_eq]

theorem precedes_nat (direction : Direction) (a b : Nat) :
  direction.precedes a b
    = match direction with
      | ascending => decide (a < b)
      | descending => decide (b < a)
  := by
  rw [Bool.eq_iff_iff]
  cases direction with
  | ascending => rw [precedes, Ordering.isLT_iff_eq_lt, Nat.compare_eq_lt, decide_eq_true_eq]
  | descending => rw [precedes, Ordering.isGT_iff_eq_gt, Nat.compare_eq_gt, decide_eq_true_eq]

theorem tied_admits_nat (direction : Direction) (rank : α → Nat) (a b : α) :
  tied (fun c d => direction.admits (rank c) (rank d)) a b = decide (rank a = rank b)
  := by
  rw [tied_admits]
  apply decide_eq_decide.mpr Nat.compare_eq_eq

theorem pairwise_stableSort_ascending (rank : α → Nat) (list : List α) :
  (ascending.stableSort rank list).Pairwise fun a b => rank a ≤ rank b
  := by
  apply (ascending.pairwise_stableSort rank list).imp
  intro a b hab
  simpa [admits_nat] using hab

theorem pairwise_stableSort_descending (rank : α → Nat) (list : List α) :
  (descending.stableSort rank list).Pairwise fun a b => rank b ≤ rank a
  := by
  apply (descending.pairwise_stableSort rank list).imp
  intro a b hab
  simpa [admits_nat] using hab

/-- A stable sort by number keeps the elements of one number as they stand. -/
theorem filter_stableSort_nat
    (direction : Direction) (rank : α → Nat) (list : List α) (number : Nat) :
  (direction.stableSort rank list).filter (fun a => rank a = number)
    = list.filter (fun a => rank a = number)
  := by
  have h := direction.filter_stableSort rank list number
  simpa only [Nat.compare_eq_eq] using h

/-- A stable sort by the low parts of numbers, sorted stably by their high parts, is the
stable sort by the numbers. -/
theorem stableSort_stableSort
    (direction : Direction) {base : Nat} (low high : α → Nat) (hlow : ∀ a, low a < base)
    (list : List α) :
  direction.stableSort high (direction.stableSort low list)
    = direction.stableSort (fun a => low a + high a * base) list
  := by
  apply isStableSort_iff.mp
  have h := IsStableSort.thenBy (direction.isRanking_admits high)
    (direction.isStableSort_stableSort low list) (direction.isStableSort_stableSort high _)
  convert h using 3 with a b
  have hswap : compare (high b) (high a) = (compare (high a) (high b)).swap :=
    Std.OrientedCmp.eq_swap
  simp only [thenBy, admits_eq_isLE, compare_add_mul _ _ (hlow _) (hlow _), hswap]
  cases direction <;> cases compare (high a) (high b) <;> rfl

end Direction

end LockstepSort
