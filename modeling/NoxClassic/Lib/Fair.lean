/-
# Fair executions

What a system of threads does eventually is said of its infinite executions: at every
time one action is taken, or none.  An execution is fair to a class of actions (the
steps of one thread, say) when the class is not enabled for ever without one of its
actions being taken.

`Execution.leadsTo_of_fair` is the rule for one step of such an argument: as long as
`P` holds some action of the class is enabled, other actions keep `P` or reach `Q`,
and the actions of the class reach `Q`.  `LeadsTo.rank` chains such steps along a
measure.
-/

import NoxClassic.Lib.Run
import Mathlib.Order.WellFounded

namespace NoxClassic.Lib

open Option List

variable {σ α : Type*}

/-- An infinite execution: the state at each time, and the action taken there, if any. -/
structure Execution (step : σ → α → Option σ) where
  state : ℕ → σ
  act : ℕ → Option α
  next : ∀ n, match act n with
    | none => state (n + 1) = state n
    | some a => step (state n) a = some (state (n + 1))

namespace Execution

variable {step : σ → α → Option σ} (e : Execution step)

/-- One of the actions of the class is taken again and again, unless none is enabled. -/
def Fair (K : α → Prop) : Prop :=
  ∀ n, (∀ m, n ≤ m → ∃ a, K a ∧ (step (e.state m) a).isSome) →
    ∃ m, n ≤ m ∧ ∃ a, K a ∧ e.act m = some a

/-- Whenever `P` holds, `Q` holds then or later. -/
def LeadsTo (P Q : σ → Prop) : Prop := ∀ n, P (e.state n) → ∃ m, n ≤ m ∧ Q (e.state m)

variable {e} {P Q R : σ → Prop}

/-- At every time an action is taken, or the state stays. -/
theorem next_cases (n : ℕ) :
    e.state (n + 1) = e.state n ∨
      ∃ a, e.act n = some a ∧ step (e.state n) a = some (e.state (n + 1)) := by
  have h := e.next n
  cases ha : e.act n with rw [ha] at h
  | none => exact .inl h
  | some a => exact .inr ⟨a, rfl, h⟩

/-- **The invariant rule.**  What the actions that are taken keep holds from then on. -/
theorem invariant_from {I : σ → Prop} {n : ℕ} (h0 : I (e.state n))
    (hstep : ∀ m a, n ≤ m → e.act m = some a → I (e.state m) →
      step (e.state m) a = some (e.state (m + 1)) → I (e.state (m + 1))) :
    ∀ m, n ≤ m → I (e.state m) := by
  intro m hm
  induction m, hm using Nat.le_induction with
  | base => exact h0
  | succ m hm ih =>
    rcases e.next_cases m with h | ⟨a, ha, h⟩
    · rw [h]
      exact ih
    · exact hstep m a hm ha ih h

theorem LeadsTo.trans (h : e.LeadsTo P Q) (h' : e.LeadsTo Q R) : e.LeadsTo P R := by
  intro n hn
  obtain ⟨m, hm, hQ⟩ := h n hn
  obtain ⟨k, hk, hR⟩ := h' m hQ
  exact ⟨k, hm.trans hk, hR⟩

/-- **The rule for one step of a fair class.** -/
theorem leadsTo_of_fair {K : α → Prop} (hfair : e.Fair K)
    (hen : ∀ n, P (e.state n) → ∃ a, K a ∧ (step (e.state n) a).isSome)
    (hkeep : ∀ n a, P (e.state n) → e.act n = some a → step (e.state n) a = some (e.state (n + 1)) →
      Q (e.state (n + 1)) ∨ ¬ K a ∧ P (e.state (n + 1))) :
    e.LeadsTo P Q := by
  intro n hn
  by_contra hnever
  have hnever : ∀ m, n ≤ m → ¬ Q (e.state m) := fun m hm hQ => hnever ⟨m, hm, hQ⟩
  -- `P` holds for ever, so the class is enabled for ever, and its action reaches `Q`
  have hP : ∀ m, n ≤ m → P (e.state m) := invariant_from hn fun m a hm ha hPm h => by
    rcases hkeep m a hPm ha h with hQ | ⟨-, hP⟩
    · exact absurd hQ (hnever (m + 1) (by omega))
    · exact hP
  obtain ⟨m, hm, a, hK, ha⟩ := hfair n fun m hm => hen m (hP m hm)
  have hnext := e.next m
  rw [ha] at hnext
  rcases hkeep m a (hP m hm) ha hnext with hQ | ⟨hK', -⟩
  · exact hnever (m + 1) (by omega) hQ
  · exact hK' hK

/-- **The rule for a measure.**  Where `P` holds, `Q` is reached or the measure gets smaller. -/
theorem LeadsTo.rank (rank : σ → ℕ)
    (h : ∀ k, e.LeadsTo (fun s => P s ∧ rank s = k) fun s => Q s ∨ P s ∧ rank s < k) :
    e.LeadsTo P Q := by
  have hall : ∀ k, e.LeadsTo (fun s => P s ∧ rank s = k) Q := by
    intro k
    induction k using Nat.strong_induction_on with
    | _ k ih =>
      intro n hn
      obtain ⟨m, hm, hQ | ⟨hP, hlt⟩⟩ := h k n hn
      · exact ⟨m, hm, hQ⟩
      · obtain ⟨m', hm', hQ⟩ := ih _ hlt m ⟨hP, rfl⟩
        exact ⟨m', hm.trans hm', hQ⟩
  exact fun n hn => hall _ n ⟨hn, rfl⟩

/-! ### Executions that come to rest -/

section OfList

variable {s t : σ} {as : List α}

/-- The state after the first `n` actions of a run, or after all of them. -/
def stateAfter (step : σ → α → Option σ) (s : σ) (as : List α) (n : ℕ) : σ :=
  (run step s (as.take n)).getD s

theorem run_take (hrun : (run step s as).isSome) (n : ℕ) :
    run step s (as.take n) = some (stateAfter step s as n) := by
  obtain ⟨t, ht⟩ := isSome_iff_exists.1 hrun
  rw [← take_append_drop n as, run_append] at ht
  obtain ⟨u, hu, -⟩ := bind_eq_some_iff.1 ht
  unfold stateAfter
  rw [hu, getD_some]

/-- The execution that takes the actions of a run, and then none. -/
def ofList (step : σ → α → Option σ) (s : σ) (as : List α) (hrun : (run step s as).isSome) :
    Execution step where
  state := stateAfter step s as
  act n := as[n]?
  next n := by
    cases ha : as[n]? with
    | none =>
      have hlen : as.length ≤ n := getElem?_eq_none_iff.1 ha
      show stateAfter step s as (n + 1) = stateAfter step s as n
      unfold stateAfter
      rw [take_of_length_le hlen, take_of_length_le (by omega)]
    | some a =>
      have h := run_take hrun (n + 1)
      rw [take_add_one, ha, run_append, run_take hrun n, bind_some,
        toList_some, run_cons] at h
      obtain ⟨u, hu, hnil⟩ := bind_eq_some_iff.1 h
      rw [run_nil] at hnil
      rw [← some.inj hnil]
      exact hu

section

variable {hrun : (run step s as).isSome} (ht : run step s as = some t)
include ht

/-- It is fair to what is not enabled in the end. -/
theorem fair_ofList {K : α → Prop}
    (hrest : ∀ a, K a → step t a = none) : (ofList step s as hrun).Fair K := by
  intro n hen
  obtain ⟨a, hK, hsome⟩ := hen (max n as.length) (le_max_left _ _)
  have hend : (ofList step s as hrun).state (max n as.length) = t := by
    show (run step s (as.take _)).getD s = t
    rw [take_of_length_le (le_max_right _ _), ht, getD_some]
  rw [hend, hrest a hK] at hsome
  nomatch hsome

end

end OfList

end Execution

end NoxClassic.Lib
