/-
# After an installation that failed

`resolve` clears `installing` on its normal way out only.  An exception that leaves its
loop, for a dependency that no deployer knows or for an action that is missing, leaves
`installing` set, and every later `install` or `change` returns at once and does nothing
(`unknown_dependency_disables_kernel`).

Where every dependency is known or described and no action is missing, no exception
leaves the loop (`resolve_usable`).  Once there is a vector for every state the loop ends,
since each round that is not its last has made a description a context or moved a context
on, and an installation that fails leaves the kernel usable
(`failed_install_leaves_usable`).
-/

import NoxClassic.Kernel.Safety
import Mathlib.Algebra.Order.BigOperators.Group.Finset

namespace NoxClassic.Kernel

open List Option Lib ComponentState

variable {Name : Type} [DecidableEq Name]

/-! ### Descriptions -/

variable {l : List (List (Name × Description Name))} {n : Name} {desc : Description Name}
    {st target : ComponentState}

/-- No deployer knows the name. -/
theorem takeDescription_eq_none : takeDescription n l = none ↔ ∀ p ∈ l.flatten, p.1 ≠ n := by
  induction l with
  | nil => exact iff_of_true rfl nofun
  | cons ds l ih =>
    unfold takeDescription
    rw [flatten_cons, forall_mem_append, ← ih]
    cases hd : ds.find? fun d => d.1 = n with
    | some d =>
      have hmem := mem_of_find?_eq_some hd
      have heq : d.1 = n := by simpa using List.find?_some hd
      exact iff_of_false nofun fun h => h.1 d hmem heq
    | none =>
      rw [map_eq_none_iff]
      refine (and_iff_right fun p hp heq => ?_).symm
      exact List.find?_eq_none.1 hd p hp (decide_eq_true heq)

/-- A deployer gives one description away and keeps all with other names. -/
theorem takeDescription_eq_some
    {l' : List (List (Name × Description Name))} (h : takeDescription n l = some (desc, l')) :
    (n, desc) ∈ l.flatten ∧ (∀ p ∈ l'.flatten, p ∈ l.flatten) ∧
      ∀ p ∈ l.flatten, p.1 ≠ n → p ∈ l'.flatten := by
  induction l generalizing l' with
  | nil => nomatch h
  | cons ds l ih =>
    unfold takeDescription at h
    cases hd : ds.find? fun d => d.1 = n with rw [hd] at h
    | some d =>
      obtain ⟨rfl, rfl⟩ := Prod.mk.inj (some.inj h)
      have hmem := mem_of_find?_eq_some hd
      have heq : d.1 = n := by simpa using List.find?_some hd
      simp only [flatten_cons, mem_append, mem_filter]
      refine ⟨.inl (heq ▸ hmem), fun p hp => hp.imp_left And.left, fun p hp hne => ?_⟩
      exact hp.imp_left fun hp => ⟨hp, decide_eq_true hne⟩
    | none =>
      obtain ⟨⟨desc', rest⟩, hr, heq⟩ := map_eq_some_iff.1 h
      obtain ⟨rfl, rfl⟩ := Prod.mk.inj heq
      obtain ⟨hin, hsub, hkeep⟩ := ih hr
      simp only [flatten_cons, mem_append]
      exact ⟨.inr hin, fun p hp => hp.imp_right (hsub p), fun p hp hne =>
        hp.imp_right fun hp => hkeep p hp hne⟩

/-- The dependencies are among `U`, and there is an action for every state. -/
def Description.Within (U : Finset Name) (d : Description Name) : Prop :=
  (∀ x ∈ d.dependencies, x ∈ U) ∧ ∀ st ∈ pending, st.next ∈ d.installActions

/-- What the call brings to the kernel is within `U`. -/
def Call.Within (U : Finset Name) : Call Name → Prop
  | .install _ _ => True
  | .installContext name desc _ => name ∈ U ∧ desc.Within U
  | .change _ _ => True
  | .attachDeployer contexts => ∀ p ∈ contexts, p.1 ∈ U ∧ p.2.Within U

/-- The components `U` are those that are known or described, they depend on each other only, and
have all their actions. -/
structure Closed (U : Finset Name) (k : Kernel Name) : Prop where
  contexts : ∀ n c, k.contexts n = some c → n ∈ U ∧ c.desc.Within U
  deployers : ∀ p ∈ k.deployers.flatten, p.1 ∈ U ∧ p.2.Within U
  available : ∀ n ∈ U, k.contexts n ≠ none ∨ ∃ p ∈ k.deployers.flatten, p.1 = n

namespace Closed

variable {U : Finset Name} {k k' : Kernel Name}

section

variable (h : Closed U k)
include h

theorem addContext (hn : n ∈ U)
    (hd : desc.Within U) : Closed U (k.addContext n desc) where
  contexts m c hc := by
    rw [contexts_addContext] at hc
    split at hc
    · next hm =>
      cases hc
      exact ⟨hm ▸ hn, hd⟩
    · exact h.contexts m c hc
  deployers := h.deployers
  available m hm := by
    rw [contexts_addContext]
    split
    · exact .inl nofun
    · exact h.available m hm

theorem deploy (hd : takeDescription n k.deployers = some (desc, l)) :
    Closed U ({ k with deployers := l }.addContext n desc) := by
  obtain ⟨hin, hsub, hkeep⟩ := takeDescription_eq_some hd
  obtain ⟨hn, hw⟩ := h.deployers _ hin
  refine ⟨?_, fun p hp => h.deployers p (hsub p hp), fun m hm => ?_⟩
  · exact (h.addContext hn hw).contexts
  · rw [contexts_addContext]
    split
    · exact .inl nofun
    · next hne =>
      exact (h.available m hm).imp_right fun ⟨p, hp, he⟩ => ⟨p, hkeep p hp (he ▸ hne), he⟩

theorem effect (he : Effect (Call.Within U) k k') : Closed U k' := by
  cases he with
  | deploy hn hd => exact h.deploy hd
  | add hn hA => exact h.addContext hA.1 hA.2
  | attach hA =>
    refine ⟨h.contexts, ?_, fun n hn => ?_⟩
    · rw [flatten_append, flatten_singleton]
      exact forall_mem_append.2 ⟨h.deployers, hA⟩
    · rw [flatten_append]
      exact (h.available n hn).imp_right fun ⟨p, hp, he⟩ => ⟨p, mem_append_left _ hp, he⟩
  | require n st =>
    refine ⟨fun m c hc => ?_, h.deployers, fun m hm => ?_⟩
    · rw [contexts_setRequired] at hc
      split at hc
      · next hm =>
        obtain ⟨c', hc', rfl⟩ := map_eq_some_iff.1 hc
        exact hm ▸ h.contexts n c' hc'
      · exact h.contexts m c hc
    · rw [contexts_setRequired]
      refine (h.available m hm).imp_left fun hne => ?_
      split
      · next he => exact fun hnone => hne (he ▸ map_eq_none_iff.1 hnone)
      · exact hne
  | note | observe => exact { h with }

theorem move : Closed U (k.refile st target n) where
  contexts m c hc := by
    rw [contexts_refile] at hc
    split at hc
    · next hm =>
      obtain ⟨c', hc', rfl⟩ := map_eq_some_iff.1 hc
      exact hm ▸ h.contexts n c' hc'
    · exact h.contexts m c hc
  deployers := h.deployers
  available m hm := by
    rw [contexts_refile]
    refine (h.available m hm).imp_left fun hne => ?_
    split
    · next he => exact fun hnone => hne (he ▸ map_eq_none_iff.1 hnone)
    · exact hne

/-- Nothing is missing. -/
theorem not_fault : ¬ Fault k := by
  rintro (⟨n, c, hc, d, hd, hnone, htake⟩ | ⟨n, c, st, hc, hst, hact⟩)
  · have hdU : d ∈ U := (h.contexts n c hc).2.1 d hd
    rcases h.available d hdU with hne | ⟨p, hp, he⟩
    · exact hne hnone
    · exact takeDescription_eq_none.1 htake p hp he
  · exact hact ((h.contexts n c hc).2.2 st hst)

/-- The contexts of a vector are among `U`. -/
theorem length_vector (hs : k.Sound) (st : ComponentState) : (k.vector st).length ≤ U.card := by
  rw [← toFinset_card_of_nodup (hs.nodup st)]
  refine Finset.card_le_card fun n hn => ?_
  obtain ⟨c, hc, -⟩ := map_eq_some_iff.1 ((hs.mem_vector n st).1 (mem_toFinset.1 hn))
  exact (h.contexts n c hc).1

end

end Closed

/-! ### The loop ends -/

/-- How far a component is from its end. -/
def remaining : Option ComponentState → ℕ
  | none => 7
  | some error => 0
  | some st => 6 - st.toNat

theorem remaining_le (o : Option ComponentState) : remaining o ≤ 7 := by
  rcases o with _ | st
  · decide
  · cases st <;> decide

theorem remaining_lt (hst : st ∈ pending)
    (ht : target = st.next ∨ target = error) : remaining (some target) < remaining (some st) := by
  revert hst
  rcases ht with rfl | rfl <;> cases st <;> decide

/-- What is left to do for the components `U`. -/
def work (U : Finset Name) (k : Kernel Name) : ℕ :=
  ∑ n ∈ U, remaining (k.stateOf n)

omit [DecidableEq Name] in
theorem work_le (U : Finset Name) (k : Kernel Name) : work U k ≤ 7 * U.card := by
  rw [Nat.mul_comm]
  exact Finset.sum_le_card_nsmul U _ 7 fun n _ => remaining_le _

variable {k k' : Kernel Name}

omit [DecidableEq Name] in
theorem Extends.remaining_le (h : Extends k k') (n : Name) :
    remaining (k'.stateOf n) ≤ remaining (k.stateOf n) := by
  cases hn : k.stateOf n with
  | none => exact Kernel.remaining_le _
  | some st => rw [h.stateOf hn]

/-- A move changes the state of one context. -/
theorem Core.Ready.stateOf_move
    (hr : k.Ready st n) (target : ComponentState) (ts : List (Transition Name)) (m : Name) :
    ({ k with transitions := ts }.refile st target n).stateOf m =
      if m = n then some target else k.stateOf m := by
  obtain ⟨c, hc, -⟩ := hr
  exact stateOf_refile (k := { k with transitions := ts }) hc st target m

theorem Gain.remaining_le (h : Gain k k') (n : Name) :
    remaining (k'.stateOf n) ≤ remaining (k.stateOf n) := by
  cases h with
  | deploy hn hd => exact (Effect.deploy (A := fun _ => False) hn hd).extends.remaining_le n
  | @move st target m hst ht hr =>
    rw [hr.stateOf_move]
    split
    · next hnm =>
      rw [hnm, hr.stateOf]
      exact Nat.le_of_lt (remaining_lt hst ht)
    · exact Nat.le_refl _

/-- Progress leaves no more to do, and a gain less. -/
theorem Progress.work_le {A : Call Name → Prop} (h : Progress A k k')
    (U : Finset Name) : work U k' ≤ work U k := by
  refine Finset.sum_le_sum fun n _ => ?_
  cases h with
  | effect h => exact h.extends.remaining_le n
  | gain h => exact h.remaining_le n
  | begin | clear => exact Nat.le_refl _

variable {U : Finset Name}

theorem Gain.work_lt (h : Gain k k') (hc : Closed U k) :
    work U k' < work U k := by
  refine Finset.sum_lt_sum (fun n _ => h.remaining_le n) ?_
  cases h with
  | @deploy n desc l hn hd =>
    refine ⟨n, (hc.deployers _ (takeDescription_eq_some hd).1).1, ?_⟩
    rw [stateOf_addContext, if_pos rfl, Core.stateOf, hn, map_none]
    decide
  | @move st target n hst ht hr =>
    obtain ⟨c, hcn, -⟩ := id hr
    refine ⟨n, (hc.contexts n c hcn).1, ?_⟩
    rw [hr.stateOf_move, if_pos rfl, hr.stateOf]
    exact remaining_lt hst ht

section Total

variable {U : Finset Name} {act : ℕ → Behaviour Name}

theorem Progress.closed (h : Progress (Call.Within U) k k')
    (hc : Closed U k) : Closed U k' := by
  cases h with
  | effect h => exact hc.effect h
  | gain h =>
    cases h with
    | deploy hn hd => exact hc.deploy hd
    | @move st target n hst ht hr =>
      have hc' : Closed U { k with
          transitions := ⟨n, st, target, true⟩ :: k.transitions } :=
        { hc with }
      exact hc'.move
  | begin | clear => exact { hc with }

theorem Runs.closed (h : Runs (Call.Within U) k k') (hc : Closed U k) :
    Closed U k' := by
  induction h with
  | refl => exact hc
  | tail _ hp ih => exact hp.closed ih

/-- There is a vector for every state before `INSTALLED`. -/
def Vectors (k : Kernel Name) : Prop := ∀ st ∈ pending, (k.perState st).isSome

theorem Progress.vectors {A : Call Name → Prop} (h : Progress A k k') (hv : Vectors k) :
    Vectors k' := by
  intro st' hst'
  cases h with
  | effect h => exact h.extends.perState st' (hv st' hst')
  | gain h =>
    cases h with
    | deploy hn hd =>
      exact (Effect.deploy (A := A) hn hd).extends.perState st' (hv st' hst')
    | @move st target n hst ht hr =>
      rw [perState_refile _ n st st' target (target_ne hst ht)]
      split
      · rfl
      · split
        · rfl
        · exact hv st' hst'
  | begin | clear => exact hv st' hst'

theorem Runs.vectors {A : Call Name → Prop} (h : Runs A k k') (hv : Vectors k) : Vectors k' := by
  induction h with
  | refl => exact hv
  | tail _ hp ih => exact hp.vectors ih

theorem Closed.bounded (hc : Closed U k) (hv : Vectors k) (hs : k.Sound) {size : ℕ}
    (hsize : U.card < size) : Bounded (Call.Within U) size (work U) k where
  perState _ hr := hr.vectors hv
  length _ hr st := Nat.lt_of_le_of_lt ((hr.closed hc).length_vector (hr.sound hs) st) hsize
  progress _ _ _ hp := hp.work_le U
  gain _ _ hr hg := hg.work_lt (hr.closed hc)

/-- A kernel that is not resolving, with nothing missing and, unless `D`, all vectors there. -/
structure Usable (U : Finset Name) (D : Prop) (k : Kernel Name) : Prop where
  sound : k.Sound
  closed : Closed U k
  idle : k.installing = false
  vectors : ¬ D → Vectors k

variable {D : Prop}

theorem Usable.effect (h : Usable U D k) (he : Effect (Call.Within U) k k') :
    Usable U D k' :=
  ⟨he.sound h.sound, h.closed.effect he, he.installing_eq.trans h.idle,
    fun hD => (Progress.effect he).vectors (h.vectors hD)⟩

variable (hact : ∀ i, ∀ c ∈ (act i).calls, c.Within U) {fuel : ℕ} (hfuel : 7 * U.card + 2 ≤ fuel)

include hact hfuel

/-- **`resolve` returns**, where the vectors are there, and leaves the kernel usable. -/
theorem resolve_usable (hk : Usable U D k) :
    (resolve act fuel k).Sat (fun _ => Usable U D) (fun _ => Usable U D) D := by
  have hc : Closed U { k with installing := true } :=
    { hk.closed with }
  have hw := work_le U { k with installing := true }
  refine (resolve_sat hact (work U) hk.sound fun hD =>
    ⟨hc.bounded (hk.vectors hD) hk.sound (by omega), by omega⟩).mono (fun _ k' h => ?_)
      fun _ k' h => ?_
  · obtain ⟨k1, hr, -, rfl⟩ := h
    have hc1 := hr.closed hc
    exact ⟨hr.sound hk.sound, { hc1 with }, rfl, fun hD => hr.vectors (hk.vectors hD)⟩
  · exact absurd h.2 (h.1.closed hc).not_fault

/-- **Every call returns or throws**, where the vectors are there, and leaves the kernel usable. -/
theorem perform_usable (hk : Usable U D k) {c : Call Name} (hc : c.Within U) :
    (perform (resolve act fuel) k c).Sat (fun _ => Usable U D) (fun _ => Usable U D) D :=
  perform_sat (fun _ _ h he => h.effect he) (fun _ h _ => resolve_usable hact hfuel h) hc hk

/-- So does every sequence of calls. -/
theorem run_usable (hk : Usable U False k) {calls : List (Call Name)}
    (hcalls : ∀ c ∈ calls, c.Within U) : ∃ k', run (step act fuel) k calls = some k' ∧
      Usable U False k' := by
  induction calls generalizing k with
  | nil => exact ⟨k, rfl, hk⟩
  | cons c calls ih =>
    have hstep : ∃ k1, step act fuel k c = some k1 ∧ Usable U False k1 := by
      have h := perform_usable hact hfuel hk (hcalls c mem_cons_self)
      unfold step
      cases hp : perform (resolve act fuel) k c with
      | ok _ k1 => exact ⟨k1, rfl, (hp ▸ h : (Exec.ok _ k1).Sat _ _ _)⟩
      | throw _ k1 => exact ⟨k1, rfl, (hp ▸ h : (Exec.throw _ k1).Sat _ _ _)⟩
      | crash => exact (hp ▸ h : (Exec.crash : Result Name Unit).Sat _ _ _).elim
      | spin => exact (hp ▸ h : (Exec.spin : Result Name Unit).Sat _ _ _).elim
    obtain ⟨k1, hk1, hu⟩ := hstep
    obtain ⟨k', hrun, hu'⟩ := ih hu fun c hc => hcalls c (mem_cons_of_mem _ hc)
    exact ⟨k', run_cons_eq_some.2 ⟨k1, hk1, hrun⟩, hu'⟩

end Total

/-! ### What a call that returns has done -/

/-- The component has the state that the call asks for; one that is not known is in its first
state. -/
def Call.Reached (k : Kernel Name) : Call Name → Prop
  | .install name toState => (k.stateOf name).getD notInstalled = toState
  | .installContext name _ toState => (k.stateOf name).getD notInstalled = toState
  | .change name toState => (k.stateOf name).getD notInstalled = toState
  | .attachDeployer _ => True

section Reached

variable {resolver : Kernel Name → Result Name Unit} {k : Kernel Name} (hk : k.installing = false)

include hk

theorem change_reached (name : Name) (st : ComponentState) :
    (change resolver name st k).Sat (fun _ k' => (k'.stateOf name).getD notInstalled = st)
      (fun _ _ => True) True := by
  unfold change
  cases hc : k.contexts name with dsimp only
  | none =>
    split
    · next hst =>
      rw [hst]
      show (k.stateOf name).getD notInstalled = notInstalled
      rw [Core.stateOf, hc]
      rfl
    · trivial
  | some c =>
    split
    · next hst =>
      show (k.stateOf name).getD notInstalled = st
      rw [Core.stateOf, hc]
      exact hst
    · split
      · trivial
      · rw [if_neg (by rw [show (k.setRequired name st).installing = false from hk]; decide)]
        refine (Exec.Sat.trivial _).bind fun _ k' _ => ?_
        split
        · next h => exact congrArg (Option.getD · notInstalled) h
        · trivial

/-- Outside `resolve`, a call that returns has brought its component to the state. -/
theorem perform_reached (c : Call Name) :
    (perform resolver k c).Sat (fun _ k' => c.Reached k') (fun _ _ => True) True := by
  cases c with
  | install name st =>
    show (install resolver name st k).Sat _ _ _
    cases hn : k.contexts name with
    | some c =>
      rw [install, if_pos (by rw [hn]; rfl)]
      trivial
    | none =>
      rw [install_of_none hn]
      cases hd : takeDescription name k.deployers with
      | none => trivial
      | some p =>
        exact change_reached (k := { k with deployers := p.2 }.addContext name p.1) hk name st
  | installContext name desc st =>
    show (installContext resolver name desc st k).Sat _ _ _
    unfold installContext
    split
    · trivial
    · exact change_reached (k := k.addContext name desc) hk name st
  | change name st => exact change_reached hk name st
  | attachDeployer contexts => trivial

end Reached

/-- **A failed installation leaves the kernel usable**, where nothing is missing: every dependency
of a component that is known, described or brought in by a call is itself known or described, and
every component has all its actions.  `installing` is cleared; and once there is a vector for every
state before `INSTALLED`, however many calls follow, each returns or throws, and one that returns
has brought its component to the state it asks for. -/
theorem failed_install_leaves_usable (U : Finset Name) (act : ℕ → Behaviour Name)
    (hact : ∀ i, ∀ c ∈ (act i).calls, c.Within U) (fuel : ℕ) (hfuel : 7 * U.card + 2 ≤ fuel)
    (before : List (Call Name)) (k : Kernel Name)
    (hk : run (step act fuel) (init Name) before = some k) (hidle : k.installing = false)
    (hU : Closed U k) (name : Name) (st : ComponentState) (e : Error) (k₁ : Kernel Name)
    (h : install (resolve act fuel) name st k = .throw e k₁) :
    k₁.installing = false ∧ (Vectors k → Vectors k₁) ∧
    (Vectors k₁ → ∀ later : List (Call Name), (∀ c ∈ later, c.Within U) →
      ∃ k₂, run (step act fuel) k₁ later = some k₂ ∧ k₂.installing = false ∧
        ∀ c : Call Name, c.Within U →
          (∃ k₃, perform (resolve act fuel) k₂ c = .ok () k₃ ∧ c.Reached k₃) ∨
          ∃ e' k₃, perform (resolve act fuel) k₂ c = .throw e' k₃) := by
  have hperform {D : Prop} (hv : ¬ D → Vectors k) : Usable U D k₁ := by
    have hu : Usable U D k := ⟨(Inv.run act fuel hk).sound, hU, hidle, hv⟩
    have := perform_usable hact hfuel hu (c := .install name st) trivial
    rwa [show perform (resolve act fuel) k (.install name st) = .throw e k₁ from h] at this
  have hu1 : Usable U True k₁ := hperform (absurd trivial ·)
  refine ⟨hu1.idle, fun hv => (hperform fun _ => hv).vectors not_false, fun hv later hlater => ?_⟩
  obtain ⟨k₂, hrun, hu2⟩ := run_usable hact hfuel { hu1 with vectors := fun _ => hv } hlater
  refine ⟨k₂, hrun, hu2.idle, fun c hc => ?_⟩
  have htotal := perform_usable hact hfuel hu2 hc
  have hreached : (perform (resolve act fuel) k₂ c).Sat (fun _ k' => c.Reached k')
      (fun _ _ => True) True := perform_reached hu2.idle c
  cases hp : perform (resolve act fuel) k₂ c with
  | ok u k₃ =>
    rw [hp] at hreached
    exact .inl ⟨k₃, rfl, hreached⟩
  | throw e' k₃ => exact .inr ⟨e', k₃, rfl⟩
  | crash | spin =>
    rw [hp] at htotal
    exact htotal.elim

/-- The hypotheses of `failed_install_leaves_usable` are satisfiable: the second of two components
ends in `ERROR`. -/
theorem failed_install_leaves_usable_two :
    ∃ k k₁ : Kernel Bool,
      run (step (fun i => ⟨[], i < 6⟩) 20) (init Bool)
        [.attachDeployer [(false, component []), (true, component [])],
          .install false installed] = some k ∧
      install (resolve (fun i => ⟨[], i < 6⟩) 20) true installed k = .throw .cannotChange k₁ ∧
      k₁.installing = false ∧ Vectors k₁ := by
  generalize hr : run (step (fun i => ⟨[], i < 6⟩) 20) (init Bool)
    [.attachDeployer [(false, component []), (true, component [])], .install false installed] = r
  have hctx : (r.map fun k => (k.contexts false, k.contexts true)) =
      some (some ⟨component [], installed, installed⟩, none) := hr ▸ by decide +kernel
  have hdep : (r.map fun k => k.deployers) = some [[(true, component [])]] := hr ▸ by decide +kernel
  have hrest : (r.map fun k =>
      (k.installing, pending.all fun st => (k.perState st).isSome)) = some (false, true) :=
    hr ▸ by decide +kernel
  have hthrow : (r.bind fun k =>
      match install (resolve (fun i => ⟨[], i < 6⟩) 20) true installed k with
      | .throw e _ => some e
      | _ => none) = some .cannotChange := hr ▸ by decide +kernel
  obtain ⟨k, rfl, heq⟩ := map_eq_some_iff.1 hctx
  obtain ⟨hf, ht⟩ := Prod.mk.inj heq
  have hd : k.deployers = [[(true, component [])]] := some.inj hdep
  obtain ⟨hidle, hp⟩ := Prod.mk.inj (some.inj hrest)
  rw [bind_some] at hthrow
  have hw : (component ([] : List Bool)).Within Finset.univ :=
    ⟨fun d _ => Finset.mem_univ d, fun _ hst => mem_map_of_mem hst⟩
  have hU : Closed Finset.univ k := by
    refine ⟨fun n c hc => ⟨Finset.mem_univ n, ?_⟩, ?_, fun n _ => ?_⟩
    · cases n with
      | false =>
        obtain rfl := some.inj (hf.symm.trans hc)
        exact hw
      | true => nomatch (ht.symm.trans hc).symm
    · rw [hd]
      intro p hp
      obtain rfl := mem_singleton.1 hp
      exact ⟨Finset.mem_univ _, hw⟩
    · cases n with
      | false => exact .inl (by rw [hf]; exact some_ne_none _)
      | true => exact .inr ⟨(true, component []), by rw [hd]; exact mem_cons_self, rfl⟩
  cases hi : install (resolve (fun i => ⟨[], i < 6⟩) 20) true installed k with
  | throw e k₁ =>
    rw [hi] at hthrow
    cases hthrow
    obtain ⟨hidle', hvectors, -⟩ := failed_install_leaves_usable Finset.univ _
      (fun i c hc => absurd hc not_mem_nil) 20 (by decide) _ k hr hidle hU true installed _ k₁ hi
    exact ⟨k, k₁, rfl, hi, hidle', hvectors (all_eq_true.1 hp)⟩
  | ok | crash | spin => nomatch (hi ▸ hthrow).symm

/-- **A dependency that no deployer knows disables the kernel.**  Component 0 depends on 1, which
is not described; its installation throws and leaves `installing` set.  Then the installation of
component 2, which depends on nothing, returns normally and has done nothing. -/
theorem unknown_dependency_disables_kernel :
    ((run (step (fun _ => ⟨[], true⟩) 20) (init (Fin 3))
      [.attachDeployer [(0, component [1]), (2, component [])]]).bind fun k =>
        match install (resolve (fun _ => ⟨[], true⟩) 20) 0 installed k with
        | .throw e k₁ =>
          match install (resolve (fun _ => ⟨[], true⟩) 20) 2 installed k₁ with
          | .ok _ k₂ => some (k.installing, e, k₁.installing, k₂.stateOf 2)
          | _ => none
        | _ => none) =
      some (false, .descriptionNotFound, true, some notInstalled) := by
  decide +kernel

end NoxClassic.Kernel
