/-
# Computations that change a state and may throw

Part of the code of this development throws exceptions through functions that have
changed the state already, and goes on with the changed state where it catches them.
`Exec σ ε α` is the result of such a computation: it returned, it threw, and both
carry the state, or it crashed, or it did not end within the rounds it was given.

`Sat` is the rule of pre- and postconditions for it: what holds where it returns, what
holds where it throws, and whether the two other endings are excluded.
-/

import Mathlib.Tactic.TypeStar

namespace NoxClassic.Lib

/-- The result of a computation. -/
inductive Exec (σ ε α : Type*) where
  | ok (a : α) (s : σ)
  | throw (e : ε) (s : σ)
  | crash
  | spin

namespace Exec

variable {σ ε α β : Type*}

/-- One computation after another. -/
def bind (o : Exec σ ε α) (f : α → σ → Exec σ ε β) : Exec σ ε β :=
  match o with
  | .ok a s => f a s
  | .throw e s => .throw e s
  | .crash => .crash
  | .spin => .spin

@[simp] theorem bind_ok (a : α) (s : σ) (f : α → σ → Exec σ ε β) : (ok a s).bind f = f a s := rfl

/-- The state where the computation returned or threw. -/
def state? : Exec σ ε α → Option σ
  | .ok _ s => some s
  | .throw _ s => some s
  | .crash => none
  | .spin => none

/-- The computation meets the postconditions `Q` where it returns and `R` where it throws;
`D` has to hold if it crashes or does not end. -/
def Sat (o : Exec σ ε α) (Q : α → σ → Prop) (R : ε → σ → Prop) (D : Prop) : Prop :=
  match o with
  | .ok a s => Q a s
  | .throw e s => R e s
  | .crash => D
  | .spin => D

variable {o : Exec σ ε α} {f : α → σ → Exec σ ε β} {Q Q' : α → σ → Prop} {R R' : ε → σ → Prop}
  {D : Prop}

/-- **The rule for a sequence.** -/
theorem Sat.bind {S : β → σ → Prop} (h : o.Sat Q R D) (hf : ∀ a s, Q a s → (f a s).Sat S R D) :
    (o.bind f).Sat S R D := by
  cases o with
  | ok a s => exact hf a s h
  | throw | crash | spin => exact h

/-- **The rule of consequence.** -/
theorem Sat.mono (h : o.Sat Q R D) (hQ : ∀ a s, Q a s → Q' a s) (hR : ∀ e s, R e s → R' e s) :
    o.Sat Q' R' D := by
  cases o with
  | ok a s => exact hQ a s h
  | throw e s => exact hR e s h
  | crash | spin => exact h

/-- What excludes the other endings holds whatever is asked of them. -/
theorem Sat.total (h : o.Sat Q R False) (D : Prop) : o.Sat Q R D := by
  cases o with
  | ok | throw => exact h
  | crash | spin => exact h.elim

theorem Sat.trivial (o : Exec σ ε α) : o.Sat (fun _ _ => True) (fun _ _ => True) True := by
  cases o <;> exact True.intro

/-- What holds where the computation returns and where it throws holds in its state. -/
theorem Sat.of_state? {I : σ → Prop} {s : σ} (h : o.Sat (fun _ => I) (fun _ => I) D)
    (hs : o.state? = some s) : I s := by
  cases o with
  | ok | throw => exact Option.some.inj hs ▸ h
  | crash | spin => nomatch hs

end Exec

end NoxClassic.Lib
