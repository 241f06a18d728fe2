import LockstepSort.Proofs.Likeness.Pairs
import LockstepSort.Proofs.Radix.Sort

/-!
# Like pairs sorted by digits

Like pairs are counted alike and deposited at the same positions, so the columns that are filled
hold like pairs in the end, whatever lay in them before.  A sort by digits leaves like pairs in
the live columns, also where it is broken off, and whatever lies in the scratch columns.
-/

namespace LockstepSort

variable {K K' V V' : Type} [DigitKey K] [DigitKey K'] {P : K × V → K' × V' → Prop}
  {n place passes : Nat}

/-! ### Distribution -/

/-- Keys with the same digits are counted alike. -/
theorem Buckets.counts_congr {keys : List K} {keys' : List K'}
    (h : List.Forall₂
      (fun key key' => DigitKey.digit key' place = DigitKey.digit key place) keys keys') :
  counts place keys' = counts place keys
  := by
  unfold counts
  generalize empty = buckets
  induction h generalizing buckets with
  | nil => rfl
  | cons hkey _ ih =>
      rw [List.foldlM_cons, List.foldlM_cons, hkey]
      congr 1
      funext buckets
      apply ih

/-- The next free positions are the same, and if the columns held like pairs from the start on,
they still do. -/
structure Distribution.Along (P : K × V → K' × V' → Prop) (start : Prop)
    (state : Distribution K V n) (state' : Distribution K' V' n) : Prop where
  cursors : state'.cursors = state.cursors
  target : start → state.target.Like P state'.target

/-- Like pairs are deposited at the same position. -/
theorem Distribution.Along.deposit (hP : Likeness P) (hplace : place < DigitKey.places K)
    {start : Prop} {state : Distribution K V n} {state' : Distribution K' V' n} {a : K × V}
    {a' : K' × V'} (h : Along P start state state') (ha : P a a') :
  Attempt.Both (Along P start) (fun s t => start → s.target.Like P t.target)
    (deposit place state a) (deposit place state' a')
  := by
  unfold Distribution.deposit
  rw [hP.digit ha place hplace, h.cursors]
  apply (Attempt.Both.ask h.target _).bind
  rintro digit _ rfl
  dsimp only
  split
  next hposition =>
      have htarget (hstart : start) := (h.target hstart).set ⟨_, hposition⟩ ha
      apply (Attempt.Both.ask htarget _).bind
      rintro cursors _ rfl
      exact Attempt.Both.ok ⟨rfl, htarget⟩
  next => apply Attempt.Both.error h.target

namespace Pairs

variable {pairs target : Pairs K V n} {pairs' target' : Pairs K' V' n}

theorem Like.counts (hP : Likeness P) (hplace : place < DigitKey.places K)
    (h : pairs.Like P pairs') :
  Buckets.counts place pairs'.keys.toList = Buckets.counts place pairs.keys.toList
  := by
  apply Buckets.counts_congr
  rw [← map_fst_toList, ← map_fst_toList, List.forall₂_map_left_iff, List.forall₂_map_right_iff]
  apply (like_iff_forall₂.mp h).imp
  intro a a' ha
  apply hP.digit ha place hplace

/-- Like pairs are distributed alike.  What lies in the columns that are filled matters only to
what is left there when the distribution is broken off. -/
theorem Like.distribute (hP : Likeness P) (hplace : place < DigitKey.places K)
    (h : pairs.Like P pairs') (direction : Direction) :
  Attempt.Both (Like P) (fun t t' => target.Like P target' → t.Like P t')
    (pairs.distribute direction place target) (pairs'.distribute direction place target')
  := by
  have hboth : Attempt.Both (fun _ _ => True) (fun t t' => target.Like P target' → t.Like P t')
      (pairs.distribute direction place target) (pairs'.distribute direction place target') := by
    unfold Pairs.distribute
    rw [h.counts hP hplace]
    apply (Attempt.Both.ask id _).bind
    rintro counts _ rfl
    apply (Attempt.Both.ask id _).bind
    rintro cursors _ rfl
    have hstart : Distribution.Along P (target.Like P target') ⟨target, cursors⟩
        ⟨target', cursors⟩ := ⟨rfl, id⟩
    have hfold := Attempt.Both.foldlM (like_iff_forall₂.mp h) hstart
      fun _ _ _ _ hstate ha => hstate.deposit hP hplace ha
    apply hfold.within
    · intros
      trivial
    · intro state state' hstate
      apply hstate
  -- If both come to their end, both have sorted like pairs stably by the same digits.
  generalize hfilled : pairs.distribute direction place target = x at hboth
  generalize hfilled' : pairs'.distribute direction place target' = y at hboth
  cases hboth with
  | ok =>
      apply Attempt.Both.ok
      rw [like_iff_forall₂, toList_distribute hfilled, toList_distribute hfilled']
      apply Direction.forall₂_stableSort (like_iff_forall₂.mp h)
      intro a a' ha
      apply hP.digitAt ha hplace
  | error herror => apply Attempt.Both.error herror

end Pairs

/-! ### Sorting by digits -/

namespace RadixState

variable {direction : Direction} {state : RadixState K V n} {state' : RadixState K' V' n}

/-- The live columns hold like pairs, and so do the scratch columns. -/
structure Like (P : K × V → K' × V' → Prop) (state : RadixState K V n)
    (state' : RadixState K' V' n) : Prop where
  live : state.live.Like P state'.live
  scratch : state.scratch.Like P state'.scratch

theorem Like.pass (hP : Likeness P) (hplace : place < DigitKey.places K)
    (h : state.Like P state') (direction : Direction) :
  Attempt.Both (Like P) (Like P) (pass direction state place) (pass direction state' place)
  := by
  unfold RadixState.pass
  split
  · apply (h.live.distribute hP hplace direction).within
    · intro filled filled' hfilled
      exact ⟨h.live, hfilled⟩
    · intro filled filled' hfilled
      exact ⟨h.live, hfilled h.scratch⟩
  · apply (h.scratch.distribute hP hplace direction).within
    · intro filled filled' hfilled
      exact ⟨hfilled, h.scratch⟩
    · intro filled filled' hfilled
      exact ⟨hfilled h.live, h.scratch⟩

/-- The first pass fills the scratch columns, so these hold like pairs after it whatever they
held before. -/
theorem both_pass_zero (hP : Likeness P) (hplace : 0 < DigitKey.places K)
    (h : state.live.Like P state'.live) (direction : Direction) :
  Attempt.Both (Like P) (fun s t => s.live.Like P t.live) (pass direction state 0)
    (pass direction state' 0)
  := by
  apply (h.distribute hP hplace direction).within
  · intro filled filled' hfilled
    exact ⟨h, hfilled⟩
  · intros
    apply h

/-- A sort by digits does the same to like pairs in the live columns, whatever lies in the
scratch columns. -/
theorem both_sort (hP : Likeness P) (hpasses : passes ≤ DigitKey.places K)
    (h : state.live.Like P state'.live) (direction : Direction) :
  Attempt.Both (fun s t => s.live.Like P t.live) (fun s t => s.live.Like P t.live)
    (sort direction passes state) (sort direction passes state')
  := by
  cases passes with
  | zero =>
      apply Attempt.Both.ok
      apply h
  | succ passes =>
      have hplaces : List.Forall₂ (fun place place' => place = place' ∧ place < DigitKey.places K)
          ((List.range passes).map Nat.succ) ((List.range passes).map Nat.succ) := by
        rw [List.forall₂_same]
        intro place hplace
        obtain ⟨p, hp, rfl⟩ := List.mem_map.mp hplace
        rw [List.mem_range] at hp
        omega
      unfold sort
      rw [List.range_succ_eq_map, List.foldlM_cons, List.foldlM_cons]
      have hrest : Attempt.Both (Like P) (fun s t => s.live.Like P t.live)
          (pass direction state 0 >>= fun s =>
            ((List.range passes).map Nat.succ).foldlM (pass direction) s)
          (pass direction state' 0 >>= fun s =>
            ((List.range passes).map Nat.succ).foldlM (pass direction) s) := by
        apply (both_pass_zero hP (by omega) h direction).bind
        intro s t hst
        apply (Attempt.Both.foldlM hplaces hst _).imp (fun _ _ => id) (fun _ _ => Like.live)
        rintro s t place _ hst ⟨rfl, hplace⟩
        apply hst.pass hP hplace
      apply hrest.bind
      intro s t hst
      split
      · apply Attempt.Both.ok
        apply hst.live
      · apply Attempt.Both.ok
        apply hst.scratch

end RadixState

end LockstepSort
