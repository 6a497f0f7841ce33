/-
# What a call changes while the kernel is resolving

`install` and `change`, called by an install action or for a dependency, change the
kernel in few ways: a description becomes a context, a new context or a deployer comes
in, a required state is set, and the kernel notes that there is more to do.  `Effect`
says these ways once.  `perform_sat` is the rule for a call with any resolver; within
`resolve` it gives `perform_effects`.
-/

import NoxClassic.Kernel.Model
import Mathlib.Logic.Relation

namespace NoxClassic.Kernel

open Function List Lib ComponentState

variable {Name : Type} [DecidableEq Name]

/-! ### The updates of the kernel -/

section Updates

variable (k : Kernel Name) (n m : Name) (desc : Description Name) (st st' target : ComponentState)

theorem contexts_addContext : (k.addContext n desc).contexts m =
    if m = n then some ⟨desc, notInstalled, notInstalled⟩ else k.contexts m :=
  update_apply ..

theorem stateOf_addContext : (k.addContext n desc).stateOf m =
    if m = n then some notInstalled else k.stateOf m := by
  rw [Core.stateOf, contexts_addContext]
  split <;> rfl

theorem perState_addContext : (k.addContext n desc).perState st =
    if st = notInstalled then some (k.vector notInstalled ++ [n]) else k.perState st :=
  update_apply ..

theorem vector_addContext : (k.addContext n desc).vector st =
    if st = notInstalled then k.vector notInstalled ++ [n] else k.vector st := by
  rw [Core.vector, perState_addContext]
  split <;> rfl

theorem contexts_setRequired : (k.setRequired n st).contexts m =
    if m = n then (k.contexts n).map fun c => { c with required := st } else k.contexts m :=
  update_apply ..

@[simp] theorem stateOf_setRequired : (k.setRequired n st).stateOf m = k.stateOf m := by
  rw [Core.stateOf, contexts_setRequired]
  split
  · next h =>
    rw [h, Core.stateOf, Option.map_map]
    rfl
  · rfl

theorem contexts_refile : (k.refile st target n).contexts m =
    if m = n then (k.contexts n).map fun c => { c with current := target } else k.contexts m :=
  update_apply ..

theorem perState_refile (h : target ≠ st) : (k.refile st target n).perState st' =
    if st' = target then some (k.vector target ++ [n])
    else if st' = st then some ((k.vector st).erase n) else k.perState st' := by
  have hv : Core.vector ⟨(k.setCurrent n target).contexts,
      update k.perState st (some ((k.vector st).erase n))⟩ target = k.vector target := by
    show (update k.perState st _ target).getD [] = k.vector target
    rw [update_of_ne h]
    rfl
  show update (update k.perState st _) target (some (Core.vector _ target ++ [n])) st' = _
  rw [update_apply, update_apply]
  split
  · exact congrArg (fun v => some (v ++ [n])) hv
  · rfl

theorem vector_refile (h : target ≠ st) : (k.refile st target n).vector st' =
    if st' = target then k.vector target ++ [n]
    else if st' = st then (k.vector st).erase n else k.vector st' := by
  rw [Core.vector, perState_refile k n st st' target h]
  split
  · rfl
  · split <;> rfl

end Updates

/-! ### Effects -/

/-- What a call may change, where `A` says which calls are made. -/
inductive Effect (A : Call Name → Prop) : Kernel Name → Kernel Name → Prop
  | deploy {k : Kernel Name} {name : Name} {desc : Description Name}
      {deployers : List (List (Name × Description Name))} (hn : k.contexts name = none)
      (hd : takeDescription name k.deployers = some (desc, deployers)) :
      Effect A k ({ k with deployers := deployers }.addContext name desc)
  | add {k : Kernel Name} {name : Name} {desc : Description Name} {st : ComponentState}
      (hn : k.contexts name = none) (hA : A (.installContext name desc st)) :
      Effect A k (k.addContext name desc)
  | attach (k : Kernel Name) {contexts : List (Name × Description Name)}
      (hA : A (.attachDeployer contexts)) :
      Effect A k { k with deployers := k.deployers ++ [contexts] }
  | require (k : Kernel Name) (name : Name) (st : ComponentState) :
      Effect A k (k.setRequired name st)
  | note (k : Kernel Name) : Effect A k { k with stateRequirementsChanged := true }
  | observe (k : Kernel Name) : Effect A k k.observe

/-- The effects of any number of calls. -/
abbrev Effects (A : Call Name → Prop) : Kernel Name → Kernel Name → Prop :=
  Relation.ReflTransGen (Effect A)

section Rule

variable {A : Call Name → Prop} {P : Kernel Name → Prop} {D : Prop}
  {resolver : Kernel Name → Result Name Unit}

variable {k : Kernel Name}

/-- `change` keeps what effects and the resolver keep. -/
theorem change_sat (hP : ∀ k k', P k → Effect A k k' → P k')
    (hres : ∀ k, P k → k.installing = false → (resolver k).Sat (fun _ => P) (fun _ => P) D)
    (name : Name) (st : ComponentState) (hk : P k) :
    (change resolver name st k).Sat (fun _ => P) (fun _ => P) D := by
  unfold change
  cases hc : k.contexts name with dsimp only
  | none => split <;> exact hk
  | some c =>
    have hr : P (k.setRequired name st) := hP _ _ hk (.require k name st)
    split
    · exact hk
    split
    · exact hk
    · split
      · exact hP _ _ hr (.note _)
      · next hi =>
        refine (hres _ hr (Bool.eq_false_iff.2 hi)).bind fun _ k' hk' => ?_
        split <;> exact hk'

/-- `install` of a name that is not known: the first deployer that has it. -/
theorem install_of_none {name : Name} (hn : k.contexts name = none)
    (st : ComponentState) : install resolver name st k =
      match takeDescription name k.deployers with
      | none => .throw .descriptionNotFound k
      | some (desc, deployers) =>
        change resolver name st ({ k with deployers := deployers }.addContext name desc) := by
  unfold install
  rw [if_neg (by rw [hn]; exact Bool.false_ne_true)]
  cases hd : takeDescription name k.deployers with
  | none => rfl
  | some p =>
    obtain ⟨desc, deployers⟩ := p
    have hn' : ¬ (({ k with deployers := deployers } : Kernel Name).contexts name).isSome := by
      rw [show ({ k with deployers := deployers } : Kernel Name).contexts name = none from hn]
      exact Bool.false_ne_true
    dsimp only
    rw [installContext, if_neg hn']
    simp [change, contexts_addContext]

/-- **The rule for a call.**  What effects keep, and the resolver where it is called, the
call keeps. -/
theorem perform_sat (hP : ∀ k k', P k → Effect A k k' → P k')
    (hres : ∀ k, P k → k.installing = false → (resolver k).Sat (fun _ => P) (fun _ => P) D)
    {c : Call Name} (hA : A c) (hk : P k) :
    (perform resolver k c).Sat (fun _ => P) (fun _ => P) D := by
  cases c with
  | install name st =>
    show (install resolver name st k).Sat _ _ _
    cases hn : k.contexts name with
    | some c =>
      rw [install, if_pos (by rw [hn]; rfl)]
      exact hk
    | none =>
      rw [install_of_none hn]
      cases hd : takeDescription name k.deployers with
      | none => exact hk
      | some p => exact change_sat hP hres name st (hP _ _ hk (.deploy hn hd))
  | installContext name desc st =>
    show (installContext resolver name desc st k).Sat _ _ _
    unfold installContext
    split
    · exact hk
    · next hn =>
      have hn : k.contexts name = none := Option.not_isSome_iff_eq_none.1 hn
      exact change_sat hP hres name st (hP _ _ hk (.add hn hA))
  | change name st => exact change_sat hP hres name st hk
  | attachDeployer contexts => exact hP _ _ hk (.attach k hA)

end Rule

variable {A : Call Name → Prop} {k k' : Kernel Name}

theorem Effect.installing_eq (h : Effect A k k') :
    k'.installing = k.installing := by
  cases h <;> rfl

theorem Effects.installing_eq (h : Effects A k k') :
    k'.installing = k.installing := by
  induction h with
  | refl => rfl
  | tail _ he ih => exact he.installing_eq.trans ih

section Nested

/-- **Within `resolve` a call has effects only**, and it ends. -/
theorem perform_effects (hk : k.installing = true) {c : Call Name} (hA : A c) :
    (perform noResolve k c).Sat (fun _ k' => Effects A k k') (fun _ k' => Effects A k k') False :=
  -- the kernel is still resolving, so that no call resolves again
  (perform_sat (P := fun k' => k'.installing = true ∧ Effects A k k')
    (fun _ _ h he => ⟨he.installing_eq.trans h.1, h.2.tail he⟩)
    (fun _ h hi => nomatch h.1.symm.trans hi) hA ⟨hk, .refl⟩).mono
    (fun _ _ h => h.2) (fun _ _ h => h.2)

/-- The calls of an action have effects only, and they end. -/
theorem runCalls_effects {cs : List (Call Name)} (hA : ∀ c ∈ cs, A c)
    (hk : k.installing = true) :
    (runCalls cs k).Sat (fun _ k' => Effects A k k') (fun _ _ => False) False := by
  induction cs generalizing k with
  | nil => exact .refl
  | cons c cs ih =>
    have hc := perform_effects hk (hA c mem_cons_self)
    have hrest {k' : Kernel Name} (hk' : Effects A k k') :
        (runCalls cs k'.observe).Sat (fun _ k' => Effects A k k') (fun _ _ => False) False := by
      have h : Effects A k k'.observe := hk'.tail (.observe k')
      have hi : k'.observe.installing = true := h.installing_eq.trans hk
      exact (ih (fun c hc => hA c (mem_cons_of_mem _ hc)) hi).mono
        (fun _ _ h' => h.trans h') (fun _ _ h => h)
    unfold runCalls
    cases hp : perform noResolve k c with
    | ok _ k' => exact hrest (hp ▸ hc : (Exec.ok _ k').Sat _ _ _)
    | throw _ k' => exact hrest (hp ▸ hc : (Exec.throw _ k').Sat _ _ _)
    | crash => exact (hp ▸ hc : (Exec.crash : Result Name Unit).Sat _ _ _)
    | spin => exact (hp ▸ hc : (Exec.spin : Result Name Unit).Sat _ _ _)

end Nested

/-! ### What effects keep -/

/-- The contexts and vectors of `k` are still there in `k'`, the contexts in the same
states and the vectors perhaps longer. -/
structure Extends (k k' : Kernel Name) : Prop where
  contexts : ∀ n c, k.contexts n = some c →
    ∃ c', k'.contexts n = some c' ∧ c'.desc = c.desc ∧ c'.current = c.current
  vector : ∀ st, k.vector st <+: k'.vector st
  perState : ∀ st, (k.perState st).isSome → (k'.perState st).isSome
  changed : k.stateRequirementsChanged = true → k'.stateRequirementsChanged = true
  installing : k'.installing = k.installing
  transitions : k'.transitions = k.transitions
  settled : k'.settled = k.settled

namespace Extends

variable {k k' k'' : Kernel Name}

omit [DecidableEq Name] in
theorem refl (k : Kernel Name) : Extends k k :=
  ⟨fun _ c h => ⟨c, h, rfl, rfl⟩, fun _ => prefix_rfl, fun _ => id, id, rfl, rfl, rfl⟩

omit [DecidableEq Name] in
theorem trans (h : Extends k k') (h' : Extends k' k'') : Extends k k'' where
  contexts n c hc := by
    obtain ⟨c', hc', hd, hs⟩ := h.contexts n c hc
    obtain ⟨c'', hc'', hd', hs'⟩ := h'.contexts n c' hc'
    exact ⟨c'', hc'', hd'.trans hd, hs'.trans hs⟩
  vector st := (h.vector st).trans (h'.vector st)
  perState st := h'.perState st ∘ h.perState st
  changed := h'.changed ∘ h.changed
  installing := h'.installing.trans h.installing
  transitions := h'.transitions.trans h.transitions
  settled := h'.settled.trans h.settled

omit [DecidableEq Name] in
theorem stateOf (h : Extends k k') {n : Name} {st : ComponentState} (hn : k.stateOf n = some st) :
    k'.stateOf n = some st := by
  obtain ⟨c, hc, rfl⟩ := Option.map_eq_some_iff.1 hn
  obtain ⟨c', hc', -, hs⟩ := h.contexts n c hc
  rw [Core.stateOf, hc', Option.map_some, hs]

theorem addContext (k : Kernel Name) {n : Name} (hn : k.contexts n = none)
    (desc : Description Name) : Extends k (k.addContext n desc) where
  contexts m c hc := by
    have hm : m ≠ n := by
      rintro rfl
      nomatch hc.symm.trans hn
    exact ⟨c, by rw [contexts_addContext, if_neg hm, hc], rfl, rfl⟩
  vector st := by
    rw [vector_addContext]
    split
    · next h => exact h ▸ prefix_append _ _
    · exact prefix_rfl
  perState st h := by
    rw [perState_addContext]
    split
    · rfl
    · exact h
  changed := id
  installing := rfl
  transitions := rfl
  settled := rfl

theorem setRequired (k : Kernel Name) (n : Name) (st : ComponentState) :
    Extends k (k.setRequired n st) where
  contexts m c hc := by
    rw [contexts_setRequired]
    split
    · next h => exact ⟨{ c with required := st }, by rw [← h, hc]; rfl, rfl, rfl⟩
    · exact ⟨c, hc, rfl, rfl⟩
  vector _ := prefix_rfl
  perState _ := id
  changed := id
  installing := rfl
  transitions := rfl
  settled := rfl

end Extends

/-- An effect leaves the contexts in their states. -/
theorem Effect.extends (h : Effect A k k') : Extends k k' := by
  cases h with
  | @deploy n desc deployers hn hd =>
    have h := Extends.addContext { k with deployers := deployers } hn desc
    exact { h with }
  | add hn hA => exact Extends.addContext k hn _
  | attach | observe => exact ⟨(Extends.refl k).contexts, fun _ => prefix_rfl, fun _ => id, id, rfl,
      rfl, rfl⟩
  | require n st => exact Extends.setRequired k n st
  | note => exact ⟨(Extends.refl k).contexts, fun _ => prefix_rfl, fun _ => id, fun _ => rfl,
      rfl, rfl, rfl⟩

theorem Effects.extends (h : Effects A k k') : Extends k k' := by
  induction h with
  | refl => exact Extends.refl k
  | tail _ he ih => exact ih.trans he.extends

end NoxClassic.Kernel
