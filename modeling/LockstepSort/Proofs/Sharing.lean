import LockstepSort.Proofs.Likeness.Sort
import LockstepSort.Sharing

/-!
# Scratch does not show

Two runs that differ in their scratch go on to differ in nothing else: what a sort by digits
leaves behind depends on the pairs alone.  So a sort for which the scratch is large enough
ends with what it ends with without any, whatever lies in the scratch, and so does each of
the sorts that share the scratch.
-/

namespace LockstepSort

/-! ### Sorts -/

section

variable {K V : Type} {ending other : Ending K V}

/-- Two endings differ in their scratch at most. -/
structure Ending.Alike (ending other : Ending K V) : Prop where
  keys : ending.keys = other.keys
  values : ending.values = other.values
  log : ending.log = other.log
  result : ending.result = other.result

theorem Ending.Like.alike (h : ending.Like Eq other) :
  ending.Alike other
  := by
  obtain ⟨hkeys, hvalues⟩ := Prod.mk.inj h.columns.eq
  exact ⟨hkeys, hvalues, h.log.symm, h.result.symm⟩

end

section

variable {K V : Type} [DigitKey K] {strategy : Strategy} {scratch scratch' : Option (Scratch K V)}
  {keys : Array K} {values : Array V} {offset length : Nat}

/-- The scratch does not show in what a sort ends with, once the checks are done. -/
theorem sortWindowWith_alike
    (hchecked : checked strategy scratch keys values offset length
      = checked strategy scratch' keys values offset length) :
  (sortWindowWith strategy scratch keys values offset length).Alike
    (sortWindowWith strategy scratch' keys values offset length)
  := by
  cases h : checked strategy scratch keys values offset length with
  | error failure =>
      rw [sortWindowWith_of_error h, sortWindowWith_of_error (hchecked ▸ h)]
      exact ⟨rfl, rfl, rfl, rfl⟩
  | ok request =>
      obtain ⟨hpasses, rfl⟩ := exists_passes h
      obtain ⟨hpasses', -⟩ := exists_passes (hchecked ▸ h)
      rw [sortWindowWith_of_checked h, sortWindowWith_of_checked (hchecked ▸ h)]
      have hlike : hpasses.pairs.Like Eq hpasses.pairs := Pairs.like_eq_iff.mpr rfl
      have hsorted := hlike.sortWindow Likeness.eq (w := hpasses.window) hpasses.served
        hpasses'.served
      apply hsorted.alike

/-- Scratch of the same capacity passes the same checks. -/
theorem checked_of_capacity {s s' : Scratch K V} (h : s.capacity = s'.capacity) :
  checked strategy (some s) keys values offset length
    = checked strategy (some s') keys values offset length
  := by
  simp only [checked, checkScratch, h]

/-- Scratch that is large enough does not show in the checks. -/
theorem checked_of_served {s : Scratch K V} (h : strategy.scratchRequired length ≤ s.capacity) :
  checked strategy (some s) keys values offset length
    = checked strategy none keys values offset length
  := by
  have hserved : strategy.ServedBy length (some s) := by
    rintro _ ⟨⟩
    apply h
  have hnone : strategy.ServedBy length (none : Option (Scratch K V)) := by rintro s ⟨⟩
  rw [checked, checked, checkScratch_of_served hserved, checkScratch_of_served hnone]

/-- Scratch does not show in the checks, unless a sort is turned down for lack of it. -/
theorem checked_eq_or_small (s : Scratch K V) :
  checked strategy (some s) keys values offset length
      = checked strategy none keys values offset length
    ∨ checked strategy (some s) keys values offset length
      = .error (.rejected (.scratchTooSmall (strategy.scratchRequired length) s.capacity))
  := by
  by_cases hserved : strategy.scratchRequired length ≤ s.capacity
  · left
    apply checked_of_served hserved
  unfold checked
  cases pairUp keys values with
  | error =>
      left
      rfl
  | ok pairs =>
      cases windowAt offset length keys.size with
      | error =>
          left
          rfl
      | ok w =>
          right
          rw [checkScratch_of_small (Nat.lt_of_not_le hserved)]
          rfl

end

/-! ### Requests -/

/-- Two reports differ in what lies in the scratch at most. -/
structure Report.Alike {K V : Type} (report other : Report K V) : Prop where
  keys : report.session.keys = other.session.keys
  values : report.session.values = other.session.values
  capacity : report.session.scratch.capacity = other.session.scratch.capacity
  result : report.result = other.result
  log : report.log = other.log

theorem Report.Alike.trans {K V : Type} {report other third : Report K V}
    (h : report.Alike other) (h' : other.Alike third) :
  report.Alike third
  := ⟨h.keys.trans h'.keys, h.values.trans h'.values, h.capacity.trans h'.capacity,
    h.result.trans h'.result, h.log.trans h'.log⟩

section

variable {K V : Type} [DigitKey K]

section

variable {keys : Array K} {values : Array V} {scratch scratch' : Scratch K V}
  {strategy : Strategy} {offset length : Nat}

/-- Two calls of one sort, each with the scratch of its session or without any, are reported
alike if the scratch does not show in their checks. -/
theorem Session.call_alike
    {lent lent' : Option (Scratch K V)} (hcapacity : scratch.capacity = scratch'.capacity)
    (hlent : ∀ s ∈ lent, s = scratch) (hlent' : ∀ s ∈ lent', s = scratch')
    (hchecked : checked strategy lent keys values offset length
      = checked strategy lent' keys values offset length) :
  (Session.call ⟨keys, values, scratch⟩ (.sortWindowWith strategy lent offset length)).Alike
    (Session.call ⟨keys, values, scratch'⟩ (.sortWindowWith strategy lent' offset length))
  := by
  have halike := sortWindowWith_alike hchecked
  refine ⟨halike.keys, halike.values, ?_, halike.result, halike.log⟩
  apply (Scratch.measure_getD Scratch.capacity hlent sortWindowWith_capacity).trans
  apply hcapacity.trans
  symm
  apply Scratch.measure_getD Scratch.capacity hlent' sortWindowWith_capacity

/-- A call without scratch is reported alike whatever the scratch of the session. -/
theorem Session.call_none_alike (hcapacity : scratch.capacity = scratch'.capacity) :
  (Session.call ⟨keys, values, scratch⟩ (.sortWindowWith strategy none offset length)).Alike
    (Session.call ⟨keys, values, scratch'⟩ (.sortWindowWith strategy none offset length))
  := by
  apply call_alike hcapacity _ _ rfl
  · rintro s ⟨⟩
  · rintro s ⟨⟩

/-- A call with the scratch of the session is reported alike for all scratch of one capacity. -/
theorem Session.call_some_alike (hcapacity : scratch.capacity = scratch'.capacity) :
  (Session.call ⟨keys, values, scratch⟩
      (.sortWindowWith strategy (some scratch) offset length)).Alike
    (Session.call ⟨keys, values, scratch'⟩
      (.sortWindowWith strategy (some scratch') offset length))
  := by
  apply call_alike hcapacity _ _ (checked_of_capacity hcapacity)
  · rintro s ⟨⟩
    rfl
  · rintro s ⟨⟩
    rfl

/-- A call is reported alike without the scratch of the session, unless that is too small. -/
theorem Session.call_withoutScratch_alike
    (hlacks : ¬ (Session.call ⟨keys, values, scratch⟩
      (.sortWindowWith strategy (some scratch) offset length)).lacksScratch) :
  (Session.call ⟨keys, values, scratch⟩ (.sortWindowWith strategy none offset length)).Alike
    (Session.call ⟨keys, values, scratch⟩
      (.sortWindowWith strategy (some scratch) offset length))
  := by
  apply call_alike rfl
  · rintro s ⟨⟩
  · rintro s ⟨⟩
    rfl
  · obtain h | h := checked_eq_or_small scratch
    · apply h.symm
    · simp [Session.call, Call.ending, Report.lacksScratch, sortWindowWith_of_error h] at hlacks

end

namespace Request

variable [Inhabited K] [Inhabited V]

/-- What lies in the scratch does not show in the report of a request. -/
theorem report_alike
    {scratch scratch' : Scratch K V} (request : Request K V)
    (hcapacity : scratch.capacity = scratch'.capacity) :
  (request.report scratch).Alike (request.report scratch')
  := by
  obtain ⟨keys, values, command⟩ := request
  cases command with
  | sort => apply Session.call_none_alike hcapacity
  | sortDescending => apply Session.call_none_alike hcapacity
  | sortDescendingWith => apply Session.call_some_alike hcapacity
  | sortWindow => apply Session.call_none_alike hcapacity
  | sortWindowWith offset length strategy useScratch =>
      cases useScratch with
      | true => apply Session.call_some_alike hcapacity
      | false => apply Session.call_none_alike hcapacity
  | reserve length =>
      refine ⟨rfl, rfl, ?_, rfl, rfl⟩
      apply (Scratch.capacity_reserve _ _).trans
      rw [hcapacity]
      symm
      apply Scratch.capacity_reserve
  | newScratch => exact ⟨rfl, rfl, rfl, rfl, rfl⟩
  | emptyScratch => exact ⟨rfl, rfl, rfl, rfl, rfl⟩
  | _ => exact ⟨rfl, rfl, hcapacity, rfl, rfl⟩

/-- A request is reported alike without the scratch, unless that is too small for it. -/
theorem withoutScratch_report_alike
    {scratch : Scratch K V} {request : Request K V}
    (hlacks : ¬ (request.report scratch).lacksScratch) :
  (request.withoutScratch.report scratch).Alike (request.report scratch)
  := by
  obtain ⟨keys, values, command⟩ := request
  cases command with
  | sortDescendingWith => apply Session.call_withoutScratch_alike hlacks
  | sortWindowWith offset length strategy useScratch =>
      cases useScratch with
      | true => apply Session.call_withoutScratch_alike hlacks
      | false => apply report_alike _ rfl
  | _ => apply report_alike _ rfl

/-- Requests that share scratch are reported alike when it is withdrawn from those that it is
large enough for. -/
theorem reports_sparing_alike
    (spare : Report K V → Bool) {scratch scratch' : Scratch K V} {requests : List (Request K V)}
    (hcapacity : scratch'.capacity = scratch.capacity) :
  List.Forall₂ Report.Alike (reports scratch' (sparing spare scratch requests))
    (reports scratch requests)
  := by
  induction requests generalizing scratch scratch' with
  | nil => apply List.Forall₂.nil
  | cons request requests ih =>
      have hstep : ((if spare (request.report scratch)
            && !(request.report scratch).lacksScratch then
            request.withoutScratch else request).report scratch').Alike
          (request.report scratch) := by
        split
        next hspared =>
            simp only [Bool.and_eq_true, Bool.not_eq_true'] at hspared
            apply (report_alike request.withoutScratch hcapacity).trans
            apply withoutScratch_report_alike
            simp [hspared.2]
        next => apply report_alike request hcapacity
      apply List.Forall₂.cons hstep
      apply ih hstep.capacity

end Request

end

/-- A sort with scratch that is large enough ends with what it ends with without any, whatever
lies in the scratch.  So where sorts share scratch, it can be withdrawn from any of those that
are not turned down for lack of it, and none of them reports anything else. -/
theorem scratch_never_shows {K V : Type} [DigitKey K] :
  (∀ (strategy : Strategy) (scratch : Scratch K V) (keys : Array K) (values : Array V)
    (offset length : Nat),
    strategy.scratchRequired length ≤ scratch.capacity →
    (sortWindowWith strategy (some scratch) keys values offset length).Alike
      (sortWindowWith strategy none keys values offset length))
  ∧ (∀ (scratch : Scratch K V) (keys : Array K) (values : Array V),
    (Strategy.forKeys K .descending).scratchRequired keys.size ≤ scratch.capacity →
    (sortDescendingWith scratch keys values).Alike (sortDescending keys values))
  ∧ ∀ [Inhabited K] [Inhabited V] (spare : Report K V → Bool) (scratch : Scratch K V)
      (requests : List (Request K V)),
    List.Forall₂ Report.Alike
      (Request.reports scratch (Request.sparing spare scratch requests))
      (Request.reports scratch requests)
  := by
  refine ⟨?_, ?_, ?_⟩
  · intro strategy scratch keys values offset length hserved
    apply sortWindowWith_alike (checked_of_served hserved)
  · intro scratch keys values hserved
    apply sortWindowWith_alike (checked_of_served hserved)
  · intro _ _ spare scratch requests
    apply Request.reports_sparing_alike spare rfl

/-- Of four requests that share scratch, the first splits its window and writes over the
scratch, the second is turned down, the third makes the scratch larger, and the last finds it
large enough. -/
theorem scratch_withdrawn_around_refusal :
  let scratch : Scratch UInt32 String := ⟨#[9, 8, 7, 6], #["x", "y", "z", "x", "y"]⟩
  let strategy : Strategy := ⟨.descending, 2, none, .low32⟩
  let short : Array UInt32 := #[3, 1, 4, 1]
  let long : Array UInt32 := #[3, 1, 4, 1, 5]
  let requests : List (Request UInt32 String) :=
    [⟨short, #["a", "b", "c", "d"], .sortWindowWith 0 4 strategy true⟩,
      ⟨long, #["a", "b", "c", "d", "e"], .sortDescendingWith⟩, ⟨#[], #[], .reserve 6⟩,
      ⟨long, #["a", "b", "c", "d", "e"], .sortDescendingWith⟩]
  (sortWindowWith strategy (some scratch) short #["a", "b", "c", "d"] 0 4).values
      = (sortWindowWith strategy none short #["a", "b", "c", "d"] 0 4).values
    ∧ (sortDescendingWith scratch short #["a", "b", "c", "d"]).log
      = (sortDescending short #["a", "b", "c", "d"]).log
    ∧ List.Forall₂ Report.Alike
        (Request.reports scratch (Request.sparing (fun _ => true) scratch requests))
        (Request.reports scratch requests)
  := by
  intro scratch strategy short long requests
  obtain ⟨hwindow, hdescending, hrequests⟩ := scratch_never_shows (K := UInt32) (V := String)
  refine ⟨?_, ?_, ?_⟩
  · apply (hwindow strategy scratch short #["a", "b", "c", "d"] 0 4 _).values
    decide
  · apply (hdescending scratch short #["a", "b", "c", "d"] _).log
    decide
  · apply hrequests

end LockstepSort
