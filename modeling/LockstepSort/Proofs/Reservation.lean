import LockstepSort.Proofs.Sort
import LockstepSort.Session

/-!
# Reserved scratch

The columns of scratch are equally long from the start and grow alike, and sorts write over them
without making them longer or shorter.  So the scratch of a session is as long as the most that
was asked for since it was renewed, and no sort is turned down for lack of scratch whose window,
or whose limit on ranges sorted by digits, is at most that.
-/

namespace LockstepSort

/-! ### Sorts that are not turned down -/

section

variable {K V : Type} [DigitKey K] {strategy : Strategy} {scratch : Option (Scratch K V)}
  {keys : Array K} {values : Array V} {offset length required capacity : Nat}

/-- The checks do not miss scratch where it serves the window. -/
theorem checked_of_served_ne (hserved : strategy.ServedBy length scratch) :
  checked strategy scratch keys values offset length
    ≠ .error (.rejected (.scratchTooSmall required capacity))
  := by
  rw [checked, checkScratch_of_served hserved, pairUp, windowAt]
  cases Pairs.ofArrays? keys values with
  | none => rintro ⟨⟩
  | some pairs =>
      cases Window.of? offset length keys.size with
      | none => rintro ⟨⟩
      | some w =>
          simp only [Except.mapError, bind, Except.bind]
          cases checkSigns (pairs.slice w).keys <;> rintro ⟨⟩

/-- A sort whose window the scratch serves is not turned down for lack of it. -/
theorem result_of_served_ne (hserved : strategy.ServedBy length scratch) :
  (sortWindowWith strategy scratch keys values offset length).result
    ≠ .error (.rejected (.scratchTooSmall required capacity))
  := by
  cases h : checked strategy scratch keys values offset length with
  | error failure =>
      rw [sortWindowWith_of_error h]
      intro hresult
      rw [Except.error.inj hresult] at h
      apply checked_of_served_ne hserved h
  | ok request =>
      rw [sortWindowWith_of_checked h, Pairs.sortWindow]
      cases (Run.start request.1 scratch).sort strategy 0 request.2 <;> rintro ⟨⟩

end

/-! ### Commands and the scratch -/

namespace Command

variable {K V : Type}

/-- The length of the scratch that a command takes in place of the old one. -/
def renewal? : Command K V → Option Nat
  | newScratch length => some length
  | emptyScratch => some 0
  | _ => none

/-- The length of the ranges that a command makes the scratch serve. -/
def reservation? : Command K V → Option Nat
  | reserve length => some length
  | _ => none

theorem eq_reserve {command : Command K V} {length : Nat}
    (h : command.reservation? = some length) :
  command = .reserve length
  := by
  cases command with
  | reserve => rw [Option.some.inj h]
  | _ => contradiction

end Command

namespace Session

variable {K V : Type} [DigitKey K]

/-- A call to which the scratch of the session is lent, or none, leaves it as large as it is. -/
theorem sizes_call {session : Session K V} {strategy : Strategy} {lent : Option (Scratch K V)}
    {offset length : Nat} (hlent : ∀ s ∈ lent, s = session.scratch) :
  (session.call (.sortWindowWith strategy lent offset length)).session.scratch.sizes
    = session.scratch.sizes
  := Scratch.measure_getD Scratch.sizes hlent sortWindowWith_sizes

theorem sizes_call_none {session : Session K V} {strategy : Strategy} {offset length : Nat} :
  (session.call (.sortWindowWith strategy none offset length)).session.scratch.sizes
    = session.scratch.sizes
  := sizes_call nofun

theorem sizes_call_some {session : Session K V} {strategy : Strategy} {offset length : Nat} :
  (session.call
      (.sortWindowWith strategy (some session.scratch) offset length)).session.scratch.sizes
    = session.scratch.sizes
  := by
  apply sizes_call
  rintro s ⟨⟩
  rfl

variable [Inhabited K] [Inhabited V] {session : Session K V} {command : Command K V}
  {since : List (Command K V)} {length : Nat}

/-- A command that neither renews the scratch nor reserves any leaves it as large as it is. -/
theorem sizes_exec (hrenewal : command.renewal? = none)
    (hreservation : command.reservation? = none) :
  (session.exec command).session.scratch.sizes = session.scratch.sizes
  := by
  cases command with
  | sort => apply sizes_call_none
  | sortDescending => apply sizes_call_none
  | sortDescendingWith => apply sizes_call_some
  | sortWindow => apply sizes_call_none
  | sortWindowWith offset length strategy useScratch =>
      cases useScratch with
      | true => apply sizes_call_some
      | false => apply sizes_call_none
  | newScratch => contradiction
  | emptyScratch => contradiction
  | reserve => contradiction
  | _ => rfl

theorem sizes_exec_of_renewal (h : command.renewal? = some length) :
  (session.exec command).session.scratch.sizes = (length, length)
  := by
  cases command with
  | newScratch =>
      obtain rfl := Option.some.inj h
      apply Scratch.sizes_ofLength
  | emptyScratch =>
      obtain rfl := Option.some.inj h
      rfl
  | _ => contradiction

theorem sizes_exec_of_reservation {reserved : Nat} (h : command.reservation? = some reserved)
    (hsizes : session.scratch.sizes = (length, length)) :
  (session.exec command).session.scratch.sizes = (max length reserved, max length reserved)
  := by
  obtain rfl := Command.eq_reserve h
  apply (Scratch.sizes_reserve _ _).trans
  rw [hsizes]

/-- The session that commands leave behind when they are carried out one after the other. -/
def after (session : Session K V) (commands : List (Command K V)) : Session K V :=
  match (session.execAll commands).getLast? with
  | some report => report.session
  | none => session

theorem after_cons (session : Session K V) (command : Command K V)
    (commands : List (Command K V)) :
  session.after (command :: commands) = (session.exec command).session.after commands
  := by
  rw [after, execAll, List.getLast?_cons, after]
  cases ((session.exec command).session.execAll commands).getLast? <;> rfl

theorem after_append (session : Session K V) (commands commands' : List (Command K V)) :
  session.after (commands ++ commands') = (session.after commands).after commands'
  := by
  induction commands generalizing session with
  | nil => rfl
  | cons command commands ih => rw [List.cons_append, after_cons, ih, after_cons]

/-- Without being renewed, columns that are equally long become as long as the most that is
reserved. -/
theorem sizes_after (hsizes : session.scratch.sizes = (length, length))
    (hsince : ∀ command ∈ since, command.renewal? = none) :
  let longest := (since.filterMap Command.reservation?).foldl max length
  (session.after since).scratch.sizes = (longest, longest)
  := by
  induction since generalizing session length with
  | nil => apply hsizes
  | cons command since ih =>
      have hrenewal := hsince command List.mem_cons_self
      have hsince : ∀ command ∈ since, command.renewal? = none :=
        fun c hc => hsince c (List.mem_cons_of_mem _ hc)
      cases hreservation : command.reservation? with
      | none =>
          rw [List.filterMap_cons_none hreservation, after_cons]
          apply ih _ hsince
          rw [sizes_exec hrenewal hreservation, hsizes]
      | some reserved =>
          rw [List.filterMap_cons_some hreservation, List.foldl_cons, after_cons]
          apply ih _ hsince
          apply sizes_exec_of_reservation hreservation hsizes

/-- After the last renewal, the scratch is as long as the most that was asked for since. -/
theorem sizes_after_renewal (session : Session K V) (before : List (Command K V))
    (hrenewal : command.renewal? = some length)
    (hsince : ∀ command ∈ since, command.renewal? = none) :
  let longest := (since.filterMap Command.reservation?).foldl max length
  (session.after (before ++ command :: since)).scratch.sizes = (longest, longest)
  := by
  rw [after_append, after_cons]
  apply sizes_after (sizes_exec_of_renewal hrenewal) hsince

end Session

/-- The scratch of a session is as long as the most that was asked for since it was renewed, in
keys and in values.  Sorts do not change that, and none is turned down for lack of scratch whose
window, or whose limit on ranges sorted by digits, is no longer.  Longer windows, a higher limit on
ranges sorted by digits and a lower one on ranges sorted by insertion never require less, so that
scratch which is large enough for a window is large enough for every shorter one. -/
theorem scratch_serves_what_was_reserved {K V : Type} [DigitKey K] [Inhabited K] [Inhabited V] :
  (∀ (session : Session K V) (before since : List (Command K V)) (renewal : Command K V)
    (length : Nat),
    renewal.renewal? = some length → (∀ command ∈ since, command.renewal? = none) →
    let scratch := (session.after (before ++ renewal :: since)).scratch
    let longest := (since.filterMap Command.reservation?).foldl max length
    scratch.keys.size = longest ∧ scratch.values.size = longest ∧ scratch.capacity = longest
    ∧ ∀ (strategy : Strategy) (keys : Array K) (values : Array V) (offset range : Nat),
      range ≤ longest ∨ strategy.radixLimit ≤ longest →
      ∀ required capacity, (sortWindowWith strategy (some scratch) keys values offset range).result
        ≠ .error (.rejected (.scratchTooSmall required capacity)))
  ∧ (∀ (session : Session K V) (command : Command K V),
    command.renewal? = none → command.reservation? = none →
    let scratch := (session.exec command).session.scratch
    scratch.keys.size = session.scratch.keys.size
      ∧ scratch.values.size = session.scratch.values.size)
  ∧ (∀ (strategy strategy' : Strategy) (length length' : Nat), length ≤ length' →
    strategy.radixLimit ≤ strategy'.radixLimit →
    strategy'.insertionLimit ≤ strategy.insertionLimit →
    strategy.scratchRequired length ≤ strategy'.scratchRequired length')
  ∧ ∀ (strategy : Strategy) (scratch : Scratch K V) (length shorter : Nat), shorter ≤ length →
    checkScratch strategy (some scratch) length = .ok () →
    checkScratch strategy (some scratch) shorter = .ok ()
  := by
  refine ⟨?_, ?_, ?_, ?_⟩
  · intro session before since renewal length hrenewal hsince scratch longest
    obtain ⟨hkeys, hvalues⟩ :=
      Prod.mk.inj (session.sizes_after_renewal before hrenewal hsince)
    have hcapacity : scratch.capacity = longest := by
      rw [Scratch.capacity, show scratch.keys.size = longest from hkeys,
        show scratch.values.size = longest from hvalues, Nat.min_self]
    refine ⟨hkeys, hvalues, hcapacity, ?_⟩
    intro strategy keys values offset range hrange required capacity
    apply result_of_served_ne
    rintro s ⟨⟩
    have hrequired := strategy.scratchRequired_le range
    omega
  · intro session command hrenewal hreservation scratch
    apply Prod.mk.inj (Session.sizes_exec hrenewal hreservation)
  · intro strategy strategy' length length' hlength hlimit hinsertion
    apply Strategy.scratchRequired_le_scratchRequired hlength hlimit hinsertion
  · intro strategy scratch length shorter hle hpasses
    apply checkScratch_of_served
    apply (served_of_checkScratch hpasses).mono hle

/-- Renewed for 2 pairs, the scratch has grown to 4 when a sort was refused for a negative key and
another was carried out, and 5 pairs are sorted with it where digits are read in ranges of 2. -/
theorem scratch_grown_between_sorts :
  let session : Session Int32 String := ⟨#[3, -1, 4, 1], #["a", "b", "c", "d"], .empty⟩
  let strategy : Strategy := ⟨.descending, 2, none, .low32⟩
  let since : List (Command Int32 String) :=
    [.sortDescendingWith, .reserve 4, .sortWindowWith 2 2 strategy true, .reserve 3]
  let scratch := (session.after ([.reserve 9] ++ .newScratch 2 :: since)).scratch
  scratch.keys.size = 4 ∧ scratch.values.size = 4
    ∧ (∀ required capacity, (sortWindowWith strategy (some scratch) #[7, 9, 5, 4, 3]
        #["a", "b", "c", "d", "e"] 0 5).result
      ≠ .error (.rejected (.scratchTooSmall required capacity)))
    ∧ (session.exec .sortDescendingWith).session.scratch.keys.size = 0
    ∧ strategy.scratchRequired 5 ≤ { strategy with radixLimit := 3 }.scratchRequired 6
    ∧ checkScratch strategy (some scratch) 4 = .ok ()
  := by
  intro session strategy since scratch
  obtain ⟨hlongest, hkept, hrequired, hshorter⟩ :=
    scratch_serves_what_was_reserved (K := Int32) (V := String)
  obtain ⟨hkeys, hvalues, hcapacity, hserves⟩ :=
    hlongest session [.reserve 9] since (.newScratch 2) 2 rfl (by simp [since, Command.renewal?])
  refine ⟨hkeys, hvalues, ?_, ?_, ?_, ?_⟩
  · apply hserves strategy
    right
    decide
  · apply (hkept session .sortDescendingWith rfl rfl).1
  · apply hrequired strategy _ 5 6 (by decide) (by decide) Option.none_le
  · apply hshorter strategy scratch 5 4 (by decide)
    rw [checkScratch, if_neg]
    rw [hcapacity]
    decide

end LockstepSort
