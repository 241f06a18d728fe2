import LockstepSort.Attempt
import Mathlib.Data.List.Forall2
import Mathlib.Tactic.Use

/-!
# Steps that may fail

What two steps in a row come to, and what a fold keeps: a fact about the state and the
elements taken so far, if it holds at the start and every step keeps it, holds at the end;
and if no step fails where it holds, the fold does not fail.  `Attempt.Both` compares two
attempts step by step, whether or not they come to their end.
-/

namespace LockstepSort

section

variable {α β ε σ : Type} {step : σ → α → Except ε σ} {P : List α → σ → Prop}

theorem bind_eq_ok {value : Except ε α} {next : α → Except ε β} {b : β} :
  value >>= next = .ok b ↔ ∃ a, value = .ok a ∧ next a = .ok b
  := by
  cases value <;> simp [bind, Except.bind]

theorem mapError_eq_ok {ε' : Type} {f : ε → ε'} {value : Except ε α} {a : α} :
  value.mapError f = .ok a ↔ value = .ok a
  := by
  cases value <;> constructor <;> intro h <;> cases h <;> rfl

/-- If `P` holds of the start, with no element taken, and every step keeps it as its element
is taken, then `P` holds of the end, with all elements taken. -/
theorem foldlM_keeps
    {list : List α} {start final : σ} (h : list.foldlM step start = .ok final)
    (hstart : P [] start)
    (hkeep : ∀ done a rest state state', list = done ++ a :: rest → P done state →
      step state a = .ok state' → P (done ++ [a]) state') :
  P list final
  := by
  have aux (rest : List α) :
      ∀ done state, list = done ++ rest → P done state →
        rest.foldlM step state = .ok final → P list final := by
    induction rest with
    | nil =>
        intro done state hlist hstate hfold
        obtain rfl := Except.ok.inj hfold
        rw [hlist, List.append_nil]
        apply hstate
    | cons a rest ih =>
        intro done state hlist hstate hfold
        obtain ⟨state', hstep, hfold⟩ := bind_eq_ok.mp hfold
        apply ih (done ++ [a]) state' _ _ hfold
        · rw [hlist, List.append_assoc, List.singleton_append]
        · apply hkeep done a rest state state' hlist hstate hstep
  apply aux list [] start rfl hstart h

/-- If every step keeps `P` and no step fails where `P` holds, then the fold does not fail. -/
theorem exists_foldlM
    {list : List α} {start : σ} (hstart : P [] start)
    (hkeep : ∀ done a rest state state', list = done ++ a :: rest → P done state →
      step state a = .ok state' → P (done ++ [a]) state')
    (hstep : ∀ done a rest state, list = done ++ a :: rest → P done state →
      ∃ state', step state a = .ok state') :
  ∃ final, list.foldlM step start = .ok final
  := by
  have aux (rest : List α) :
      ∀ done state, list = done ++ rest → P done state →
        ∃ final, rest.foldlM step state = .ok final := by
    induction rest with
    | nil =>
        intro _ state _ _
        exact ⟨state, rfl⟩
    | cons a rest ih =>
        intro done state hlist hstate
        obtain ⟨state', h⟩ := hstep done a rest state hlist hstate
        obtain ⟨final, hfinal⟩ := ih (done ++ [a]) state'
          (by rw [hlist, List.append_assoc, List.singleton_append])
          (hkeep done a rest state state' hlist hstate h)
        use final
        apply bind_eq_ok.mpr
        use state', h, hfinal
  apply aux list [] start rfl hstart

end

/-! ### What is left behind -/

namespace Attempt

section

variable {β σ τ : Type}

theorem state_within (put : τ → σ) (attempt : Attempt τ τ) :
  (within put attempt).state = put attempt.state
  := by
  cases attempt <;> rfl

theorem within_within {ρ : Type} (put : τ → σ) (put' : ρ → τ) (attempt : Attempt ρ ρ) :
  within put (within put' attempt) = within (put ∘ put') attempt
  := by
  cases attempt <;> rfl

/-- What the work that follows does not change is in the end as it was left behind before,
whether or not the work is broken off. -/
theorem measure_bind (measure : σ → β) {attempt : Attempt σ σ} {next : σ → Attempt σ σ}
    (hnext : ∀ state, measure (next state).state = measure state) :
  measure (attempt >>= next).state = measure attempt.state
  := by
  cases attempt with
  | ok state => apply hnext state
  | error breakdown => rfl

end

/-! ### Two attempts at once -/

variable {α α' β β' σ σ' τ τ' : Type} {P : α → α' → Prop} {Q : σ → σ' → Prop}
  {x : Attempt σ α} {y : Attempt σ' α'}

/-- Two attempts both come to their end, with results that `P` relates, or the same fault breaks
both off, in states that `Q` relates. -/
inductive Both (P : α → α' → Prop) (Q : σ → σ' → Prop) : Attempt σ α → Attempt σ' α' → Prop where
  | ok {a : α} {b : α'} (h : P a b) : Both P Q (.ok a) (.ok b)
  | error {fault : Fault} {s : σ} {t : σ'} (h : Q s t) :
    Both P Q (.error ⟨fault, s⟩) (.error ⟨fault, t⟩)

namespace Both

theorem imp {P' : α → α' → Prop} {Q' : σ → σ' → Prop} (h : Both P Q x y)
    (hP : ∀ a b, P a b → P' a b) (hQ : ∀ s t, Q s t → Q' s t) :
  Both P' Q' x y
  := by
  cases h with
  | ok h => apply Both.ok (hP _ _ h)
  | error h => apply Both.error (hQ _ _ h)

/-- Two attempts go on with each other if they do after what the first one has come to. -/
theorem bind_of_ok {R : β → β' → Prop} {next : α → Attempt σ β} {next' : α' → Attempt σ' β'}
    (h : Both P Q x y)
    (hnext : ∀ a b, x = .ok a → P a b → Both R Q (next a) (next' b)) :
  Both R Q (x >>= next) (y >>= next')
  := by
  cases h with
  | ok h => apply hnext _ _ rfl h
  | error h => apply Both.error h

theorem bind {R : β → β' → Prop} {next : α → Attempt σ β} {next' : α' → Attempt σ' β'}
    (h : Both P Q x y) (hnext : ∀ a b, P a b → Both R Q (next a) (next' b)) :
  Both R Q (x >>= next) (y >>= next')
  := h.bind_of_ok fun a b _ => hnext a b

theorem ask {s : σ} {t : σ'} (h : Q s t) (value : Except Fault α) :
  Both Eq Q (Attempt.ask s value) (Attempt.ask t value)
  := by
  cases value with
  | ok a => apply Both.ok rfl
  | error fault => apply Both.error h

theorem within {Q' : σ → σ' → Prop} {R R' : τ → τ' → Prop} {put : σ → τ} {put' : σ' → τ'}
    {x : Attempt σ σ} {y : Attempt σ' σ'} (h : Both Q Q' x y)
    (hok : ∀ a b, Q a b → R (put a) (put' b)) (herror : ∀ a b, Q' a b → R' (put a) (put' b)) :
  Both R R' (Attempt.within put x) (Attempt.within put' y)
  := by
  cases h with
  | ok h => apply Both.ok (hok _ _ h)
  | error h => apply Both.error (herror _ _ h)

/-- Two folds over lists that are related element by element go along with each other if their
steps do. -/
theorem foldlM {R : β → β' → Prop} {step : α → β → Attempt σ α} {step' : α' → β' → Attempt σ' α'}
    {list : List β} {list' : List β'} {a : α} {b : α'} (hlist : List.Forall₂ R list list')
    (h : P a b) (hstep : ∀ a b c d, P a b → R c d → Both P Q (step a c) (step' b d)) :
  Both P Q (list.foldlM step a) (list'.foldlM step' b)
  := by
  induction hlist generalizing a b with
  | nil => apply Both.ok h
  | cons hhead _ ih =>
      apply (hstep _ _ _ _ h hhead).bind
      intro a' b' h'
      apply ih h'

/-- Two attempts come to the same, as far as that shows in some part of it, if they do so step by
step. -/
theorem within_eq_iff {put : σ → τ} {put' : σ' → τ} {x : Attempt σ σ} {y : Attempt σ' σ'} :
  Attempt.within put x = Attempt.within put' y
    ↔ Both (fun s t => put s = put' t) (fun s t => put s = put' t) x y
  := by
  constructor
  · intro h
    cases x with
    | ok s =>
        cases y with
        | ok t => exact Both.ok (Except.ok.inj h)
        | error => cases h
    | error breakdown =>
        cases y with
        | ok => cases h
        | error breakdown' =>
            obtain ⟨fault, s⟩ := breakdown
            obtain ⟨fault', t⟩ := breakdown'
            obtain ⟨rfl, hstate⟩ := Breakdown.mk.inj (Except.error.inj h)
            exact Both.error hstate
  · intro h
    cases h with
    | ok h | error h => simp only [Attempt.within, h]

theorem exists_ok {a : α} (h : Both P Q x y) (hx : x = .ok a) :
  ∃ b, y = .ok b ∧ P a b
  := by
  cases h with
  | ok h =>
      obtain rfl := Except.ok.inj hx
      exact ⟨_, rfl, h⟩
  | error => contradiction

theorem state {Q : σ → σ' → Prop} {x : Attempt σ σ} {y : Attempt σ' σ'} (h : Both Q Q x y) :
  Q x.state y.state
  := by
  cases h with
  | ok h | error h => apply h

theorem result {Q Q' : σ → σ' → Prop} {x : Attempt σ σ} {y : Attempt σ' σ'} (h : Both Q Q' x y) :
  x.result = y.result
  := by
  cases h <;> rfl

end Both

end Attempt

end LockstepSort
