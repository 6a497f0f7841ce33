/-
# Dependency safety

Whatever the components are and their install actions do, the kernel keeps each context
in the vector of its state and moves a context only when its dependencies are installed,
and these stay installed.  When `resolve` returns, what is not installed, though its
dependencies are known, without cycle and without error, has ended in `ERROR` itself
(`dependency_safety`).
-/

import NoxClassic.Kernel.Resolve
import NoxClassic.Lib.Acyclic

namespace NoxClassic.Kernel

open List Option Lib ComponentState Relation

variable {Name : Type} [DecidableEq Name]

/-- `n` names `d` as a dependency. -/
def Core.DependsOn (s : Core Name) (n d : Name) : Prop :=
  ∃ c, s.contexts n = some c ∧ d ∈ c.desc.dependencies

/-- What holds in every state of the kernel. -/
structure Inv (k : Kernel Name) : Prop where
  sound : k.Sound
  transitions : ∀ t ∈ k.transitions, t.dependenciesInstalled = true
  seen : ∀ s ∈ k.seen, s.Sound
  settled : ∀ s ∈ k.settled, s.Sound ∧ s.Settled

variable {A : Call Name → Prop}

omit [DecidableEq Name] in
theorem inv_init : Inv (init Name) where
  sound := ⟨fun _ _ => iff_of_false not_mem_nil nofun, fun _ => nodup_nil, nofun⟩
  transitions _ h := nomatch h
  seen _ h := nomatch h
  settled _ h := nomatch h

variable {k k' : Kernel Name} {n : Name} {s : Core Name}

theorem Effect.inv (h : Effect A k k') (hk : Inv k) : Inv k' := by
  have hs := h.sound hk.sound
  have he := h.extends
  refine ⟨hs, he.transitions ▸ hk.transitions, ?_, he.settled ▸ hk.settled⟩
  cases h with
  | deploy | add | attach | require | note => exact hk.seen
  | observe => exact forall_mem_cons.2 ⟨hk.sound, hk.seen⟩

theorem Progress.inv (h : Progress A k k') (hk : Inv k) : Inv k' := by
  cases h with
  | effect h => exact h.inv hk
  | gain h =>
    have hs := h.sound hk.sound
    cases h with
    | deploy hn hd => exact ⟨hs, hk.transitions, hk.seen, hk.settled⟩
    | move hst ht hr =>
      exact ⟨hs, forall_mem_cons.2 ⟨rfl, hk.transitions⟩, hk.seen, hk.settled⟩
  | begin | clear => exact { hk with }

theorem Runs.inv (h : Runs A k k') (hk : Inv k) : Inv k' := by
  induction h with
  | refl => exact hk
  | tail _ hp ih => exact hp.inv ih

variable (act : ℕ → Behaviour Name) (fuel : ℕ)

/-- `resolve` keeps the invariant, and leaves a settled kernel where it returns. -/
theorem Inv.resolve (hk : Inv k) : (resolve act fuel k).Sat (fun _ => Inv) (fun _ => Inv) True := by
  have hk' : Inv { k with installing := true } := { hk with }
  refine (resolve_sat (A := fun _ => True) (fun _ _ _ => trivial) (fun _ => 0) hk.sound
    (absurd trivial)).mono (fun _ k' h => ?_) fun _ _ h => h.1.inv hk'
  obtain ⟨k1, hr, hset, rfl⟩ := h
  have h1 := hr.inv hk'
  exact ⟨h1.sound, h1.transitions, h1.seen,
    forall_mem_cons.2 ⟨⟨h1.sound, hset⟩, h1.settled⟩⟩

theorem Inv.step {c : Call Name} (hk : Inv k) (h : step act fuel k c = some k') : Inv k' :=
  (perform_sat (A := fun _ => True) (fun _ _ hk he => he.inv hk)
    (fun _ hk _ => hk.resolve act fuel) trivial hk).of_state? h

/-- **Every state of the kernel is in order.** -/
theorem Inv.run {calls : List (Call Name)}
    (h : run (Kernel.step act fuel) (init Name) calls = some k) : Inv k :=
  run_invariant (fun _ _ _ hk h => hk.step act fuel h) inv_init h

/-! ### Settled kernels -/

/-- A context is in its vector, and in no other. -/
theorem Core.Sound.count (h : s.Sound) {c : Context Name} (hc : s.contexts n = some c)
    (st : ComponentState) : (s.vector st).count n = if c.current = st then 1 else 0 := by
  have hn : n ∈ s.vector st ↔ c.current = st := by
    rw [h.mem_vector, Core.stateOf, hc, map_some, some_inj]
  split
  · next hst => exact count_eq_one_of_mem (h.nodup st) (hn.2 hst)
  · next hst => exact count_eq_zero_of_not_mem fun hmem => hst (hn.1 hmem)

/-- In a settled kernel a context is installed or in `ERROR`, if what it depends on is known,
without cycle and not in `ERROR`. -/
theorem Core.Settled.eq_installed (hs : s.Sound) (hset : s.Settled)
    {st : ComponentState} (hn : s.stateOf n = some st) (herr : st ≠ error)
    (hdeps : ∀ m, TransGen s.DependsOn n m →
      (∃ st', s.stateOf m = some st' ∧ st' ≠ error) ∧ ¬ TransGen s.DependsOn m m) :
    st = installed := by
  have hstate {m : Name} (hm : ReflTransGen s.DependsOn n m) :
      ∃ st', s.stateOf m = some st' ∧ st' ≠ error := by
    rcases reflTransGen_iff_eq_or_transGen.1 hm with rfl | hm
    · exact ⟨st, hn, herr⟩
    · exact (hdeps m hm).1
  have hlist {m : Name} (hm : ReflTransGen s.DependsOn n m) :
      m ∈ (installed :: pending).flatMap s.vector := by
    obtain ⟨st', hst', herr'⟩ := hstate hm
    refine mem_flatMap.2 ⟨st', ?_, (hs.mem_vector m st').2 hst'⟩
    by_cases hi : st' = installed
    · exact hi ▸ mem_cons_self
    · exact mem_cons_of_mem _ (mem_pending.2 ⟨hi, herr'⟩)
  have hacyclic {m : Name} (hm : ReflTransGen s.DependsOn n m) : ¬ TransGen s.DependsOn m m := by
    intro hc
    rcases reflTransGen_iff_eq_or_transGen.1 hm with rfl | hm
    · exact (hdeps _ hc).2 hc
    · exact (hdeps m hm).2 hc
  have h : s.stateOf n = some installed := by
    refine acyclic_induction (P := fun m => s.stateOf m = some installed) (fun _ => hlist)
      (fun _ => hacyclic) fun m hm ih => ?_
    obtain ⟨st', hst', herr'⟩ := hstate hm
    by_contra hne
    have hi : st' ≠ installed := fun h => hne (h ▸ hst')
    -- a context that is neither installed nor in error lacks a dependency
    obtain ⟨c, hc, d, hd, st'', hst'', hi''⟩ :=
      hset st' (mem_pending.2 ⟨hi, herr'⟩) m ((hs.mem_vector m st').2 hst')
    exact hi'' (some.inj (hst''.symm.trans (ih d ⟨c, hc, hd⟩)))
  exact some.inj (hn.symm.trans h)

/-- **Dependency safety.**  In every state that calls lead to, and in every state an install
action finds, each context is in the vector of its state, once, and in no other, and one past
`NOT_INSTALLED` has its dependencies installed.  They were installed at every transition.  Where
`resolve` returns, a context that is not in `ERROR` and whose transitive dependencies are known,
without cycle and not in `ERROR` is installed. -/
theorem dependency_safety (calls : List (Call Name)) (k : Kernel Name)
    (h : Lib.run (Kernel.step act fuel) (init Name) calls = some k) :
    (∀ s, s = k.toCore ∨ s ∈ k.seen → ∀ n c, s.contexts n = some c →
      (∀ st, (s.vector st).count n = if c.current = st then 1 else 0) ∧
      (c.current ≠ notInstalled → ∀ d ∈ c.desc.dependencies, s.stateOf d = some installed)) ∧
    (∀ t ∈ k.transitions, t.dependenciesInstalled = true) ∧
    ∀ s ∈ k.settled, ∀ n st, s.stateOf n = some st → st ≠ error →
      (∀ m, TransGen s.DependsOn n m →
        (∃ st', s.stateOf m = some st' ∧ st' ≠ error) ∧ ¬ TransGen s.DependsOn m m) →
      st = installed := by
  have hk := Inv.run act fuel h
  refine ⟨fun s hs n c hc => ?_, hk.transitions, fun s hs n st hn herr hdeps => ?_⟩
  · have hsound : s.Sound := by
      rcases hs with rfl | hs
      · exact hk.sound
      · exact hk.seen s hs
    exact ⟨hsound.count hc, hsound.met n c hc⟩
  · exact (hk.settled s hs).2.eq_installed (hk.settled s hs).1 hn herr hdeps

/-- A component with an action for every state. -/
def component (dependencies : List Name) : Description Name :=
  ⟨dependencies, pending.map next⟩

/-- The hypotheses of `dependency_safety` are satisfiable: a component is installed with the one
it depends on, which becomes known on the way. -/
theorem dependency_safety_two :
    ∃ (k : Kernel Bool) (s : Core Bool),
      run (Kernel.step (fun _ => ⟨[], true⟩) 20) (init Bool)
        [.attachDeployer [(false, component []), (true, component [false])],
          .install true installed] = some k ∧
      s ∈ k.settled ∧ s.DependsOn true false ∧ s.stateOf true = some installed := by
  have hrun : ((run (Kernel.step (fun _ => ⟨[], true⟩) 20) (init Bool)
      [.attachDeployer [(false, component []), (true, component [false])],
        .install true installed]).bind fun k => k.settled.head?.map fun s =>
          (s.contexts true, s.contexts false)) =
      some (some ⟨component [false], installed, installed⟩,
        some ⟨component [], installed, installed⟩) := by decide +kernel
  obtain ⟨k, hk, hrun⟩ := bind_eq_some_iff.1 hrun
  obtain ⟨s, hs, heq⟩ := map_eq_some_iff.1 hrun
  obtain ⟨ht, hf⟩ := Prod.mk.inj heq
  have hs : s ∈ k.settled := mem_of_head? hs
  have htrue (m : Bool) : s.DependsOn true m ↔ m = false := by
    unfold Core.DependsOn
    rw [ht]
    simp [component]
  have hfalse (m : Bool) : ¬ s.DependsOn false m := by
    rintro ⟨c, hc, hm⟩
    obtain rfl := some.inj (hf.symm.trans hc)
    nomatch hm
  have hno (m : Bool) : ¬ TransGen s.DependsOn false m := fun h => by
    obtain ⟨d, hd, -⟩ := TransGen.head'_iff.1 h
    exact hfalse d hd
  have hst : s.stateOf true = some installed := by rw [Core.stateOf, ht, map_some]
  have h := (dependency_safety _ 20 _ k hk).2.2 s hs true installed hst (by decide) fun m hm => by
    obtain ⟨d, hd, hdm⟩ := TransGen.head'_iff.1 hm
    obtain rfl := (htrue d).1 hd
    rcases reflTransGen_iff_eq_or_transGen.1 hdm with rfl | hdm
    · exact ⟨⟨installed, by rw [Core.stateOf, hf, map_some], by decide⟩, hno _⟩
    · exact absurd hdm (hno m)
  exact ⟨k, s, hk, hs, (htrue false).2 rfl, h ▸ hst⟩

/-- A component without dependencies whose first action ends in `ERROR` is known and not
installed when `resolve` returns. -/
theorem own_error_not_installed :
    ∃ (k : Kernel Bool) (s : Core Bool),
      run (Kernel.step (fun i => ⟨[], i < 6⟩) 20) (init Bool)
        [.attachDeployer [(false, component []), (true, component [])],
          .install false installed, .install true installed] = some k ∧
      s ∈ k.settled ∧ (∀ m, ¬ TransGen s.DependsOn true m) ∧ s.stateOf true = some error := by
  have hrun : ((run (Kernel.step (fun i => ⟨[], i < 6⟩) 20) (init Bool)
      [.attachDeployer [(false, component []), (true, component [])],
        .install false installed, .install true installed]).bind fun k =>
          k.settled.head?.map fun s => s.contexts true) =
      some (some ⟨component [], error, installed⟩) := by decide +kernel
  obtain ⟨k, hk, hrun⟩ := bind_eq_some_iff.1 hrun
  obtain ⟨s, hs, ht⟩ := map_eq_some_iff.1 hrun
  refine ⟨k, s, hk, mem_of_head? hs, fun m hm => ?_, by rw [Core.stateOf, ht, map_some]⟩
  obtain ⟨d, ⟨c, hc, hd⟩, -⟩ := TransGen.head'_iff.1 hm
  obtain rfl := some.inj (ht.symm.trans hc)
  exact List.not_mem_nil hd

end NoxClassic.Kernel
