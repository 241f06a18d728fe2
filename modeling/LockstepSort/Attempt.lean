import LockstepSort.Failure

/-!
# Attempts

Work on a state either comes to its end or is broken off by a fault.  In both cases there is
a state left behind, and a fault does not undo what was done before it.
-/

namespace LockstepSort

/-- A state in which a fault broke off the work. -/
structure Breakdown (σ : Type) where
  fault : Fault
  state : σ

/-- What work on a state comes to, or the state in which a fault broke the work off. -/
abbrev Attempt (σ : Type) : Type → Type := Except (Breakdown σ)

namespace Attempt

variable {α σ τ : Type}

/-- The state that is left behind. -/
def state : Attempt σ σ → σ
  | .ok state => state
  | .error breakdown => breakdown.state

/-- Whether the work came to its end, and else the fault that broke it off. -/
def result : Attempt σ σ → Except Fault Unit
  | .ok _ => .ok ()
  | .error breakdown => .error breakdown.fault

/-- A value that the work on `state` asks for; where there is none, the work is broken off. -/
def ask (state : σ) (value : Except Fault α) : Attempt σ α :=
  value.mapError fun fault => ⟨fault, state⟩

/-- Work on a part of a state, as work on the whole that `put` gives for each part. -/
def within (put : τ → σ) : Attempt τ τ → Attempt σ σ
  | .ok part => .ok (put part)
  | .error breakdown => .error ⟨breakdown.fault, put breakdown.state⟩

theorem ask_eq_ok {state : σ} {value : Except Fault α} {a : α} :
  ask state value = .ok a ↔ value = .ok a
  := by
  cases value <;> constructor <;> intro h <;> cases h <;> rfl

theorem within_eq_ok {put : τ → σ} {attempt : Attempt τ τ} {whole : σ} :
  within put attempt = .ok whole ↔ ∃ part, attempt = .ok part ∧ put part = whole
  := by
  cases attempt <;> simp [within]

end Attempt

end LockstepSort
