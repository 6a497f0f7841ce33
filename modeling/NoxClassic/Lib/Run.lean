/-
# Runs of a guarded step function

The components of this development are state machines: a step function
`step : σ → α → Option σ` says what an action does in a state, and is `none`
where the action is not enabled.  A run is a list of actions.  Every safety
result below is two lemmas about a predicate on states, that it holds at the
start and that one step keeps it, handed to `run_invariant`.

Some results hold only of the runs all of whose steps meet a condition on the
state before the step and the action (`Along`); `run_invariant_of_along` is the
same rule for those.  A loop over a list is a run whose actions are the elements.
-/

import Mathlib.Data.List.Basic

namespace NoxClassic.Lib

variable {σ α : Type*}

/-- The state the actions `as` lead to from `s`, or `none` when one of them is
not enabled where it is reached. -/
def run (step : σ → α → Option σ) : σ → List α → Option σ
  | s, [] => some s
  | s, a :: as => (step s a).bind fun t => run step t as

variable {step : σ → α → Option σ}

@[simp] theorem run_nil (s : σ) : run step s [] = some s := rfl

@[simp] theorem run_cons (s : σ) (a : α) (as : List α) :
    run step s (a :: as) = (step s a).bind fun t => run step t as := rfl

theorem run_append (s : σ) (as bs : List α) :
    run step s (as ++ bs) = (run step s as).bind fun t => run step t bs := by
  induction as generalizing s with
  | nil => rfl
  | cons a as ih =>
    rw [List.cons_append, run_cons, run_cons]
    cases step s a with
    | none => rfl
    | some t => exact ih t

variable {a : α} {as : List α} {s t : σ} {C : σ → α → Prop} {I : σ → Prop}

/-- **A run splits at its first action.** -/
theorem run_cons_eq_some :
    run step s (a :: as) = some t ↔ ∃ u, step s a = some u ∧ run step u as = some t := by
  rw [run_cons, Option.bind_eq_some_iff]

/-- Every step of the run meets `C`, a condition on the state before the step
and the action. -/
def Along (step : σ → α → Option σ) (C : σ → α → Prop) : σ → List α → Prop
  | _, [] => True
  | s, a :: as => C s a ∧ ∀ t, step s a = some t → Along step C t as

theorem Along.cons (ha : C s a)
    (ht : step s a = some t) (h : Along step C t as) : Along step C s (a :: as) := by
  refine ⟨ha, fun u hu => ?_⟩
  obtain rfl := Option.some.inj (ht.symm.trans hu)
  exact h

/-- A condition on the actions alone. -/
theorem Along.of_forall (h : ∀ a ∈ as, ∀ s, C s a) (s : σ) : Along step C s as := by
  induction as generalizing s with
  | nil => trivial
  | cons a as ih =>
    rw [List.forall_mem_cons] at h
    exact ⟨h.1 s, fun t _ => ih h.2 t⟩

/-- A condition that can be checked can be checked along a run. -/
instance Along.decidable {C : σ → α → Prop} [∀ s a, Decidable (C s a)] :
    ∀ s as, Decidable (Along step C s as)
  | _, [] => isTrue trivial
  | s, a :: as =>
    match h : step s a with
    | none => decidable_of_iff (C s a)
        ⟨fun ha => ⟨ha, fun _ ht => nomatch ht.symm.trans h⟩, And.left⟩
    | some t =>
      have : Decidable (Along step C t as) := Along.decidable t as
      decidable_of_iff (C s a ∧ Along step C t as)
        ⟨fun hc => Along.cons hc.1 h hc.2, fun hc => ⟨hc.1, hc.2 t h⟩⟩

/-- **The invariant rule, for runs that meet a condition.**  What every step
meeting `C` keeps, every run along `C` keeps. -/
theorem run_invariant_of_along (hstep : ∀ s a t, I s → C s a → step s a = some t → I t) (hs : I s)
    (hC : Along step C s as) (h : run step s as = some t) : I t := by
  induction as generalizing s with
  | nil =>
    cases h
    exact hs
  | cons a as ih =>
    obtain ⟨u, hu, h⟩ := run_cons_eq_some.1 h
    exact ih (hstep s a u hs hC.1 hu) (hC.2 u hu) h

/-- **The invariant rule.**  What every step keeps, every run keeps. -/
theorem run_invariant (hstep : ∀ s a t, I s → step s a = some t → I t)
    (hs : I s) (h : run step s as = some t) : I t :=
  run_invariant_of_along (C := fun _ _ => True) (fun s a t hs _ => hstep s a t hs) hs
    (.of_forall (fun _ _ _ => trivial) s) h

/-- An action that is enabled only under `c` was done, so that `c` held. -/
theorem of_guard {c : Prop} [Decidable c] (h : (if c then some s else none) = some t) :
    c ∧ s = t :=
  (Option.ite_none_right_eq_some.1 h).imp_right Option.some.inj

/-! ### Loops -/

/-- **The rule for a loop over a list that never fails.**  The invariant speaks of the elements
that are left. -/
theorem foldlM_total (f : σ → α → Option σ) (I : List α → σ → Prop)
    (hs : I as s) (hstep : ∀ a as s, I (a :: as) s → ∃ t, f s a = some t ∧ I as t) :
    ∃ t, as.foldlM f s = some t ∧ I [] t := by
  induction as generalizing s with
  | nil => exact ⟨s, rfl, hs⟩
  | cons a as ih =>
    obtain ⟨t, ht, hI⟩ := hstep a as s hs
    obtain ⟨u, hu, hI⟩ := ih hI
    refine ⟨u, ?_, hI⟩
    rw [List.foldlM_cons, ht]
    exact hu

end NoxClassic.Lib
