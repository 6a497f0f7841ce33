/-
# What `Kernel::resolve` does

`Progress` says once what a resolution can do to the kernel: the effects of calls, and
the move of a context all of whose dependencies are installed.  Each function of
`resolve` gets one specification in these terms, up to `resolveLoop_sat`: the loop makes
progress only, where it throws there is a fault in the descriptions, and where it
returns every context that is not at its end lacks a dependency.  It ends, given rounds
enough for what can still be gained.
-/

import Mathlib.Data.List.Nodup
import NoxClassic.Kernel.Effects

namespace NoxClassic.Kernel

open List Option Lib ComponentState

variable {Name : Type} [DecidableEq Name]

/-! ### Contexts and vectors in order -/

/-- Each context is in one vector, once, and one past its first state has its
dependencies installed. -/
structure Core.Sound (s : Core Name) : Prop where
  mem_vector : ∀ n st, n ∈ s.vector st ↔ s.stateOf n = some st
  nodup : ∀ st, (s.vector st).Nodup
  met : ∀ n c, s.contexts n = some c → c.current ≠ notInstalled →
    ∀ d ∈ c.desc.dependencies, s.stateOf d = some installed

/-- A context of a state whose dependencies are installed. -/
def Core.Ready (s : Core Name) (st : ComponentState) (n : Name) : Prop :=
  ∃ c, s.contexts n = some c ∧ c.current = st ∧
    ∀ d ∈ c.desc.dependencies, s.stateOf d = some installed

/-- A component that is known and not installed. -/
def Core.Lacks (s : Core Name) (n : Name) : Prop :=
  ∃ st, s.stateOf n = some st ∧ st ≠ installed

/-- A context with a dependency that is known and not installed. -/
def Core.Blocked (s : Core Name) (n : Name) : Prop :=
  ∃ c, s.contexts n = some c ∧ ∃ d ∈ c.desc.dependencies, s.Lacks d

/-- Every context before its last states is blocked. -/
def Core.Settled (s : Core Name) : Prop :=
  ∀ st ∈ pending, ∀ n ∈ s.vector st, s.Blocked n

variable {st target : ComponentState} {n : Name} {fuel : ℕ} {sts : List ComponentState}
  {k k' : Kernel Name}

theorem mem_pending : st ∈ pending ↔ st ≠ installed ∧ st ≠ error := by
  cases st <;> decide

/-- An action leads out of the state it starts in. -/
theorem target_ne (hst : st ∈ pending) (ht : target = st.next ∨ target = error) : target ≠ st := by
  revert hst
  rcases ht with rfl | rfl <;> cases st <;> decide

omit [DecidableEq Name] in
theorem Core.Ready.stateOf {s : Core Name} (h : s.Ready st n) : s.stateOf n = some st := by
  obtain ⟨c, hc, rfl, -⟩ := h
  rw [Core.stateOf, hc, map_some]

omit [DecidableEq Name] in
theorem Core.Ready.extends
    (h : k.Ready st n) (he : Extends k k') : k'.Ready st n := by
  obtain ⟨c, hc, hs, hm⟩ := h
  obtain ⟨c', hc', hd, hs'⟩ := he.contexts n c hc
  exact ⟨c', hc', hs'.trans hs, fun d hd' => he.stateOf (hm d (hd ▸ hd'))⟩

theorem stateOf_refile {c : Context Name} (hc : k.contexts n = some c)
    (st target : ComponentState) (m : Name) : (k.refile st target n).stateOf m =
      if m = n then some target else k.stateOf m := by
  rw [Core.stateOf, contexts_refile]
  split
  · rw [hc]
    rfl
  · rfl

/-- The context that moves was not installed, so what is installed stays so. -/
theorem Core.Ready.installed_refile (hr : k.Ready st n) (hst : st ∈ pending)
    (target : ComponentState) {d : Name} (hd : k.stateOf d = some installed) :
    (k.refile st target n).stateOf d = some installed := by
  have hdn : d ≠ n := by
    rintro rfl
    exact (mem_pending.1 hst).1 (some.inj (hr.stateOf.symm.trans hd))
  obtain ⟨c, hc, -⟩ := hr
  rw [stateOf_refile hc, if_neg hdn, hd]

/-- The others that are ready stay so. -/
theorem Core.Ready.refile {m : Name}
    (hm : k.Ready st m) (hn : k.Ready st n) (hst : st ∈ pending) (hne : m ≠ n)
    (target : ComponentState) : (k.refile st target n).Ready st m := by
  obtain ⟨c, hc, hcs, hmet⟩ := hm
  refine ⟨c, ?_, hcs, fun d hd => hn.installed_refile hst target (hmet d hd)⟩
  rw [contexts_refile, if_neg hne, hc]

namespace Core.Sound

/-- A new context is in the vector of its state. -/
theorem addContext (h : k.Sound) (hn : k.contexts n = none) (desc : Description Name) :
    (k.addContext n desc).Sound where
  mem_vector m st := by
    rw [vector_addContext, stateOf_addContext]
    by_cases hm : m = n
    · rw [if_pos hm, hm]
      split_ifs with hst
      · rw [hst]
        exact iff_of_true (mem_append_right _ mem_cons_self) rfl
      · rw [h.mem_vector, Core.stateOf, hn]
        exact iff_of_false (some_ne_none _ ·.symm) fun he => hst (some.inj he).symm
    · rw [if_neg hm, ← h.mem_vector]
      split
      · next hst =>
        rw [mem_append, mem_singleton, or_iff_left hm, hst]
      · rfl
  nodup st := by
    rw [vector_addContext]
    split
    · have hn' : n ∉ k.vector notInstalled := by
        rw [h.mem_vector, Core.stateOf, hn]
        exact (some_ne_none _ ·.symm)
      exact (h.nodup _).append (nodup_singleton n) (disjoint_singleton.2 hn')
    · exact h.nodup st
  met m c hc hs d hd := by
    have hm : m ≠ n := by
      rintro rfl
      rw [contexts_addContext, if_pos rfl, some_inj] at hc
      exact hs (hc ▸ rfl)
    rw [contexts_addContext, if_neg hm] at hc
    exact (Extends.addContext k hn desc).stateOf (h.met m c hc hs d hd)

theorem setRequired (h : k.Sound) (n : Name) (st : ComponentState) :
    (k.setRequired n st).Sound where
  mem_vector m st' := by
    rw [stateOf_setRequired]
    exact h.mem_vector m st'
  nodup := h.nodup
  met m c hc hs d hd := by
    rw [stateOf_setRequired]
    rw [contexts_setRequired] at hc
    split at hc
    · obtain ⟨c', hc', rfl⟩ := map_eq_some_iff.1 hc
      exact h.met n c' hc' hs d hd
    · exact h.met m c hc hs d hd

/-- A context that is ready goes to another vector with its new state. -/
theorem refile (h : k.Sound) (hst : st ∈ pending)
    (ht : target ≠ st) (hr : k.Ready st n) : (k.refile st target n).Sound := by
  have hn := hr.stateOf
  obtain ⟨c, hc, -, hmet⟩ := id hr
  refine ⟨fun m st' => ?_, fun st' => ?_, fun m c' hc' hs d hd => ?_⟩
  · rw [vector_refile k n st st' target ht, stateOf_refile hc]
    by_cases hm : m = n
    · rw [if_pos hm, hm, some_inj]
      split
      · next h' => exact iff_of_true (mem_append_right _ mem_cons_self) h'.symm
      next h' =>
      refine iff_of_false ?_ (h' ·.symm)
      split
      · exact fun hmem => ((h.nodup st).mem_erase_iff.1 hmem).1 rfl
      · next h'' =>
        rw [h.mem_vector, hn, some_inj]
        exact (h'' ·.symm)
    · rw [if_neg hm, ← h.mem_vector]
      split
      · next h' => rw [mem_append, mem_singleton, or_iff_left hm, h']
      · split
        · next h'' => rw [mem_erase_of_ne hm, h'']
        · rfl
  · rw [vector_refile k n st st' target ht]
    split
    · have hn' : n ∉ k.vector target := by
        rw [h.mem_vector, hn, some_inj]
        exact (ht ·.symm)
      exact (h.nodup _).append (nodup_singleton n) (disjoint_singleton.2 hn')
    · split
      · exact (h.nodup st).erase n
      · exact h.nodup st'
  · refine hr.installed_refile hst target ?_
    rw [contexts_refile] at hc'
    split at hc'
    · rw [hc] at hc'
      cases hc'
      exact hmet d hd
    · exact h.met m c' hc' hs d hd

end Core.Sound

/-! ### Progress -/

/-- What brings the kernel on: a description that becomes a context, or a context that
leaves its state. -/
inductive Gain (k : Kernel Name) : Kernel Name → Prop
  | deploy {name : Name} {desc : Description Name}
      {deployers : List (List (Name × Description Name))} (hn : k.contexts name = none)
      (hd : takeDescription name k.deployers = some (desc, deployers)) :
      Gain k ({ k with deployers := deployers }.addContext name desc)
  | move {st target : ComponentState} {name : Name} (hst : st ∈ pending)
      (ht : target = st.next ∨ target = error) (hr : k.Ready st name) :
      Gain k ({ k with
        transitions := ⟨name, st, target, true⟩ :: k.transitions }.refile st target name)

/-- What a resolution may do. -/
inductive Progress (A : Call Name → Prop) : Kernel Name → Kernel Name → Prop
  | effect {k k' : Kernel Name} (h : Effect A k k') : Progress A k k'
  | gain {k k' : Kernel Name} (h : Gain k k') : Progress A k k'
  | begin (k : Kernel Name) : Progress A k { k with actionsRun := k.actionsRun + 1 }
  | clear (k : Kernel Name) : Progress A k { k with stateRequirementsChanged := false }

/-- A resolution, as far as it has come. -/
abbrev Runs (A : Call Name → Prop) : Kernel Name → Kernel Name → Prop :=
  Relation.ReflTransGen (Progress A)

variable {A : Call Name → Prop}

theorem Effects.runs (h : Effects A k k') : Runs A k k' := by
  induction h with
  | refl => exact .refl
  | tail _ he ih => exact ih.tail (.effect he)

theorem Effect.sound (h : Effect A k k') (hk : k.Sound) : k'.Sound := by
  cases h with
  | @deploy n desc deployers hn hd =>
    exact Core.Sound.addContext (k := { k with deployers := deployers }) hk hn desc
  | add hn hA => exact hk.addContext hn _
  | attach | note | observe => exact hk
  | require n st => exact hk.setRequired n st

theorem Gain.sound (h : Gain k k') (hk : k.Sound) : k'.Sound := by
  cases h with
  | deploy hn hd => exact Effect.sound (A := fun _ => False) (.deploy hn hd) hk
  | @move st target n hst ht hr =>
    exact Core.Sound.refile (k := { k with
      transitions := ⟨n, st, target, true⟩ :: k.transitions }) hk hst (target_ne hst ht) hr

theorem Progress.sound (h : Progress A k k') (hk : k.Sound) : k'.Sound := by
  cases h with
  | effect h | gain h => exact h.sound hk
  | begin | clear => exact hk

theorem Progress.installing_eq (h : Progress A k k') :
    k'.installing = k.installing := by
  cases h with
  | effect h => exact h.installing_eq
  | gain h => cases h <;> rfl
  | begin | clear => rfl

/-- **Contexts and vectors stay in order through a resolution**, which goes on. -/
theorem Runs.sound (h : Runs A k k') (hk : k.Sound) : k'.Sound := by
  induction h with
  | refl => exact hk
  | tail _ hp ih => exact hp.sound ih

theorem Runs.installing_eq (h : Runs A k k') :
    k'.installing = k.installing := by
  induction h with
  | refl => rfl
  | tail _ hp ih => exact hp.installing_eq.trans ih

/-- A resolution that has gained something. -/
def Moved (A : Call Name → Prop) (k k' : Kernel Name) : Prop :=
  ∃ k₁ k₂, Runs A k k₁ ∧ Gain k₁ k₂ ∧ Runs A k₂ k'

namespace Moved

variable {k'' : Kernel Name}

theorem runs (h : Moved A k k') : Runs A k k' := by
  obtain ⟨k₁, k₂, h1, hg, h2⟩ := h
  exact (h1.tail (.gain hg)).trans h2

theorem after (h : Runs A k k') (h' : Moved A k' k'') : Moved A k k'' := by
  obtain ⟨k₁, k₂, h1, hg, h2⟩ := h'
  exact ⟨k₁, k₂, h.trans h1, hg, h2⟩

theorem followed (h : Moved A k k') (h' : Runs A k' k'') : Moved A k k'' := by
  obtain ⟨k₁, k₂, h1, hg, h2⟩ := h
  exact ⟨k₁, k₂, h1, hg, h2.trans h'⟩

end Moved

/-- What makes a resolution throw: a dependency that no deployer knows, or an action that
is missing. -/
def Fault (k : Kernel Name) : Prop :=
  (∃ n c, k.contexts n = some c ∧ ∃ d ∈ c.desc.dependencies,
    k.contexts d = none ∧ takeDescription d k.deployers = none) ∨
  ∃ n c st, k.contexts n = some c ∧ st ∈ pending ∧ st.next ∉ c.desc.installActions

/-- What keeps a resolution from crashing and bounds its rounds. -/
structure Bounded (A : Call Name → Prop) (size : ℕ) (measure : Kernel Name → ℕ)
    (k : Kernel Name) : Prop where
  perState : ∀ k', Runs A k k' → ∀ st ∈ pending, (k'.perState st).isSome
  length : ∀ k', Runs A k k' → ∀ st, (k'.vector st).length < size
  progress : ∀ k₁ k₂, Runs A k k₁ → Progress A k₁ k₂ → measure k₂ ≤ measure k₁
  gain : ∀ k₁ k₂, Runs A k k₁ → Gain k₁ k₂ → measure k₂ < measure k₁

namespace Bounded

variable {size : ℕ} {measure : Kernel Name → ℕ}

section

variable (h : Bounded A size measure k)
include h

theorem runs (hr : Runs A k k') : Bounded A size measure k' where
  perState k₁ h1 := h.perState k₁ (hr.trans h1)
  length k₁ h1 := h.length k₁ (hr.trans h1)
  progress k₁ k₂ h1 := h.progress k₁ k₂ (hr.trans h1)
  gain k₁ k₂ h1 := h.gain k₁ k₂ (hr.trans h1)

theorem measure_le (hr : Runs A k k') : measure k' ≤ measure k := by
  induction hr with
  | refl => exact Nat.le_refl _
  | tail hr hp ih => exact Nat.le_trans (h.progress _ _ hr hp) ih

theorem measure_lt (hm : Moved A k k') : measure k' < measure k := by
  obtain ⟨k₁, k₂, h1, hg, h2⟩ := hm
  have h3 := h.measure_le h1
  have h4 := h.gain k₁ k₂ h1 hg
  have h5 := (h.runs (h1.tail (.gain hg))).measure_le h2
  omega

end

end Bounded

/-! ### Dependencies -/

/-- A dependency is met, or known and not met, and then nothing changes, or it has become
a context and there is more to do. -/
theorem resolveDependency_sat (A : Call Name → Prop)
    (hk : k.installing = true) (d : Name) :
    (resolveDependency d k).Sat
      (fun met k' => (met = true ∧ k' = k ∧ k.stateOf d = some installed) ∨
        (met = false ∧ k' = k ∧ k.Lacks d) ∨
        (met = false ∧ k'.stateRequirementsChanged = true ∧ Effects A k k' ∧ Moved A k k'))
      (fun _ k' => k' = k ∧ k.contexts d = none ∧ takeDescription d k.deployers = none) False := by
  unfold resolveDependency
  cases hc : k.contexts d with
  | some c =>
    have hs : k.stateOf d = some c.current := by rw [Core.stateOf, hc, map_some]
    by_cases hi : c.current = installed
    · exact .inl ⟨decide_eq_true hi, rfl, hs.trans (congrArg some hi)⟩
    · exact .inr (.inl ⟨decide_eq_false hi, rfl, c.current, hs, hi⟩)
  | none =>
    rw [install_of_none hc]
    cases hd : takeDescription d k.deployers with
    | none => exact ⟨rfl, rfl, rfl⟩
    | some p =>
      obtain ⟨desc, deployers⟩ := p
      have hg : Gain k ({ k with deployers := deployers }.addContext d desc) := .deploy hc hd
      generalize hk1 : ({ k with deployers := deployers }.addContext d desc) = k₁ at hg
      have hc1 : k₁.contexts d = some ⟨desc, notInstalled, notInstalled⟩ := by
        rw [← hk1, contexts_addContext, if_pos rfl]
      have hi1 : (k₁.setRequired d installed).installing = true := by
        rw [← hk1]
        exact hk
      have hch : change noResolve d installed k₁ =
          .ok () { k₁.setRequired d installed with stateRequirementsChanged := true } := by
        unfold change
        rw [hc1]
        dsimp only
        rw [if_neg (by decide), if_neg (by decide), if_pos hi1]
      have he : Effects A k₁
          { k₁.setRequired d installed with stateRequirementsChanged := true } :=
        (Relation.ReflTransGen.single (.require k₁ d installed)).tail (.note _)
      have he1 : Effect A k k₁ := hk1 ▸ .deploy hc hd
      dsimp only
      rw [hk1, hch]
      exact .inr (.inr ⟨rfl, rfl, he.head he1, k, k₁, .refl, hg, he.runs⟩)

/-- The dependencies of a context, up to the first that is not met. -/
theorem resolveDependencies_sat (A : Call Name → Prop)
    (hk : k.installing = true) (ds : List Name) :
    (resolveDependencies ds k).Sat
      (fun met k' => (met = true ∧ k' = k ∧ ∀ d ∈ ds, k.stateOf d = some installed) ∨
        (met = false ∧ k' = k ∧ ∃ d ∈ ds, k.Lacks d) ∨
        (met = false ∧ k'.stateRequirementsChanged = true ∧ Effects A k k' ∧ Moved A k k'))
      (fun _ k' => k' = k ∧ ∃ d ∈ ds, k.contexts d = none ∧ takeDescription d k.deployers = none)
      False := by
  induction ds with
  | nil => exact .inl ⟨rfl, rfl, nofun⟩
  | cons d ds ih =>
    refine ((resolveDependency_sat A hk d).mono (fun _ _ h => h) fun _ _ h =>
      ⟨h.1, d, mem_cons_self, h.2⟩).bind fun met k' h => ?_
    rcases h with ⟨rfl, rfl, hi⟩ | ⟨rfl, rfl, hl⟩ | ⟨rfl, hg⟩
    · refine ih.mono (fun met k'' h => ?_) fun _ _ h => ?_
      · rcases h with ⟨hm, he, hall⟩ | ⟨hm, he, d', hd', hl⟩ | hg
        · exact .inl ⟨hm, he, forall_mem_cons.2 ⟨hi, hall⟩⟩
        · exact .inr (.inl ⟨hm, he, d', mem_cons_of_mem _ hd', hl⟩)
        · exact .inr (.inr hg)
      · obtain ⟨he, d', hd', h'⟩ := h
        exact ⟨he, d', mem_cons_of_mem _ hd', h'⟩
    · exact .inr (.inl ⟨rfl, rfl, d, mem_cons_self, hl⟩)
    · exact .inr (.inr ⟨rfl, hg⟩)

/-! ### Collecting and moving contexts -/

/-- The contexts of a vector that are ready, from index `i`.  Either nothing changed, and
the others are blocked, or a dependency became a context and there is more to do. -/
theorem collect_sat {D : Prop} {i : ℕ}
    (hk : k.installing = true) (hs : k.Sound) (hi : i ≤ (k.vector st).length)
    (hfuel : ¬ D → ∀ k', Runs A k k' → (k'.vector st).length < i + fuel) :
    (collect st fuel i k).Sat
      (fun names k' => Effects A k k' ∧ names.Sublist ((k'.vector st).drop i) ∧
        (∀ n ∈ names, k'.Ready st n) ∧
        ((k' = k ∧ ∀ n ∈ (k.vector st).drop i, n ∉ names → k.Blocked n) ∨
          (k'.stateRequirementsChanged = true ∧ Moved A k k')))
      (fun _ k' => Runs A k k' ∧ Fault k') D := by
  induction fuel generalizing i k with
  | zero =>
    by_contra hD
    exact absurd (hfuel hD k .refl) (Nat.not_lt.2 hi)
  | succ fuel ih =>
    unfold collect
    cases hn : (k.vector st)[i]? with
    | none =>
      have hlen : (k.vector st).length ≤ i := List.getElem?_eq_none_iff.1 hn
      refine ⟨.refl, nil_sublist _, fun n h => absurd h not_mem_nil, .inl ⟨rfl, ?_⟩⟩
      rw [drop_eq_nil_of_le hlen]
      exact fun n h => absurd h not_mem_nil
    | some n =>
      obtain ⟨hlt, hget⟩ := List.getElem?_eq_some_iff.1 hn
      have hmem : n ∈ k.vector st := hget ▸ getElem_mem hlt
      obtain ⟨c, hc, hcs⟩ := map_eq_some_iff.1 ((hs.mem_vector n st).1 hmem)
      dsimp only
      rw [hc]
      have hfault (e : Error) (k' : Kernel Name) (h : k' = k ∧ ∃ d ∈ c.desc.dependencies,
          k.contexts d = none ∧ takeDescription d k.deployers = none) :
          Runs A k k' ∧ Fault k' := by
        obtain ⟨rfl, hf⟩ := h
        exact ⟨.refl, .inl ⟨n, c, hc, hf⟩⟩
      refine (((resolveDependencies_sat A hk c.desc.dependencies).mono (fun _ _ h => h)
        hfault).total D).bind fun met k₁ h1 => ?_
      have he1 : Effects A k k₁ := by
        rcases h1 with ⟨-, rfl, -⟩ | ⟨-, rfl, -⟩ | ⟨-, -, he, -⟩
        · exact .refl
        · exact .refl
        · exact he
      have hlen1 : i + 1 ≤ (k₁.vector st).length :=
        Nat.le_trans hlt (he1.extends.vector st).length_le
      have hrest := ih (he1.installing_eq.trans hk) (he1.runs.sound hs) hlen1 fun hD k' hr => by
        have := hfuel hD k' (he1.runs.trans hr)
        omega
      refine (hrest.mono (fun _ _ h => h) fun _ _ h => ⟨he1.runs.trans h.1, h.2⟩).bind
        fun names k₂ h2 => ?_
      obtain ⟨he2, hsub, hready, hcases⟩ := h2
      have hpre : k.vector st <+: k₂.vector st := (he1.extends.trans he2.extends).vector st
      have hdrop : (k₂.vector st).drop i = n :: (k₂.vector st).drop (i + 1) := by
        rw [drop_eq_getElem_cons (Nat.lt_of_lt_of_le hlt hpre.length_le), ← hpre.getElem hlt, hget]
      have hhead {names' : List Name} (hb : k₁ = k) (hn' : n ∉ names' → k.Blocked n)
          (hsub' : names ⊆ names') :
          (k₂ = k ∧ ∀ m ∈ (k.vector st).drop i, m ∉ names' → k.Blocked m) ∨
            (k₂.stateRequirementsChanged = true ∧ Moved A k k₂) := by
        subst hb
        rcases hcases with ⟨rfl, hrest⟩ | hmoved
        · refine .inl ⟨rfl, fun m hm hnm => ?_⟩
          rw [hdrop, mem_cons] at hm
          rcases hm with rfl | hm
          · exact hn' hnm
          · exact hrest m hm fun h => hnm (hsub' h)
        · exact .inr hmoved
      refine ⟨he1.trans he2, ?_⟩
      rcases h1 with ⟨rfl, rfl, hall⟩ | ⟨rfl, rfl, d, hd, hl⟩ | ⟨rfl, hf, -, hm⟩
      · have hr : k₂.Ready st n := Core.Ready.extends ⟨c, hc, hcs, hall⟩ he2.extends
        refine ⟨hdrop ▸ hsub.cons_cons n, forall_mem_cons.2 ⟨hr, hready⟩, ?_⟩
        exact hhead rfl (absurd mem_cons_self) (subset_cons_self _ _)
      · refine ⟨hdrop ▸ hsub.cons n, hready, ?_⟩
        exact hhead rfl (fun _ => ⟨c, hc, d, hd, hl⟩) (List.Subset.refl _)
      · exact ⟨hdrop ▸ hsub.cons n, hready, .inr ⟨he2.extends.changed hf, hm.followed he2.runs⟩⟩

variable {act : ℕ → Behaviour Name}

/-- One context is moved on; the others that are ready stay so. -/
theorem advance_sat (hA : ∀ i, ∀ c ∈ (act i).calls, A c) (hst : st ∈ pending)
    (hk : k.installing = true) (hs : k.Sound) (hr : k.Ready st n) :
    (advance act st n k).Sat (fun _ k' => Moved A k k' ∧ ∀ m ≠ n, k.Ready st m → k'.Ready st m)
      (fun _ k' => Runs A k k' ∧ Fault k') False := by
  obtain ⟨c, hc, hcs, hmet⟩ := id hr
  unfold advance
  rw [hc]
  dsimp only
  split
  · next hact => exact ⟨.refl, .inr ⟨n, c, st, hc, hst, hact⟩⟩
  generalize hk0 : ({ k with actionsRun := k.actionsRun + 1 } : Kernel Name).observe = k0
  have hrun0 : Runs A k k0 :=
    hk0 ▸ (Relation.ReflTransGen.single (.begin k)).tail (.effect (.observe _))
  have hext0 : Extends k k0 :=
    hk0 ▸ ⟨(Extends.refl k).contexts, fun _ => prefix_rfl, fun _ => id, id, rfl, rfl, rfl⟩
  refine ((runCalls_effects (hA k.actionsRun) (hext0.installing.trans hk)).mono (fun _ _ h => h)
    fun _ _ h => h.elim).bind fun _ k₁ h1 => ?_
  have hrun : Runs A k k₁ := hrun0.trans h1.runs
  have hext : Extends k k₁ := hext0.trans h1.extends
  have hr1 : k₁.Ready st n := hr.extends hext
  have hnot : n ∉ (k₁.vector st).erase n := fun h =>
    (((hrun.sound hs).nodup st).mem_erase_iff.1 h).1 rfl
  have hall : (c.desc.dependencies.all fun d => decide (k₁.stateOf d = some installed)) = true :=
    all_eq_true.2 fun d hd => decide_eq_true (hext.stateOf (hmet d hd))
  rw [if_neg hnot, hall]
  refine ⟨⟨k₁, _, hrun, .move hst ?_ hr1, .refl⟩, fun m hm hrm => ?_⟩
  · split
    · exact .inl rfl
    · exact .inr rfl
  · exact Core.Ready.refile (k := { k₁ with transitions := _ }) (hrm.extends hext) hr1 hst hm _

/-- The contexts that were collected are moved on. -/
theorem advanceAll_sat (hA : ∀ i, ∀ c ∈ (act i).calls, A c) (hst : st ∈ pending) {names : List Name}
    (hnd : names.Nodup) (hk : k.installing = true) (hs : k.Sound)
    (hr : ∀ n ∈ names, k.Ready st n) :
    (advanceAll act st names k).Sat
      (fun _ k' => (names = [] ∧ k' = k) ∨ (names ≠ [] ∧ Moved A k k'))
      (fun _ k' => Runs A k k' ∧ Fault k') False := by
  induction names generalizing k with
  | nil => exact .inl ⟨rfl, rfl⟩
  | cons n names ih =>
    have hnd := nodup_cons.1 hnd
    refine (advance_sat hA hst hk hs (hr n mem_cons_self)).bind fun _ k₁ h1 => ?_
    obtain ⟨hm, hkeep⟩ := h1
    have hr1 : ∀ m ∈ names, k₁.Ready st m := fun m hmem =>
      hkeep m (fun he => hnd.1 (he ▸ hmem)) (hr m (mem_cons_of_mem _ hmem))
    refine (ih hnd.2 (hm.runs.installing_eq.trans hk) (hm.runs.sound hs) hr1).mono
      (fun _ k₂ h2 => .inr ⟨cons_ne_nil _ _, ?_⟩) fun _ _ h => ⟨hm.runs.trans h.1, h.2⟩
    rcases h2 with ⟨-, rfl⟩ | ⟨-, hm'⟩
    · exact hm
    · exact hm.followed hm'.runs

/-! ### The loops -/

/-- A pass over some states: it gained something, and says so or notes that there is more
to do, or nothing changed and every context of these states is blocked. -/
def Pass (A : Call Name → Prop) (sts : List ComponentState) (k : Kernel Name) (progress : Bool)
    (k' : Kernel Name) : Prop :=
  ((progress = true ∨ k'.stateRequirementsChanged = true) ∧ Moved A k k') ∨
    (progress = false ∧ k' = k ∧ ∀ st ∈ sts, ∀ n ∈ k.vector st, k.Blocked n)

variable {progress : Bool}

theorem Pass.runs (h : Pass A sts k progress k') : Runs A k k' := by
  rcases h with ⟨-, hm⟩ | ⟨-, rfl, -⟩
  · exact hm.runs
  · exact .refl

section Loops

variable {act : ℕ → Behaviour Name} (hA : ∀ i, ∀ c ∈ (act i).calls, A c) {D : Prop} {size : ℕ}
  (measure : Kernel Name → ℕ)

include hA

/-- `resolve(from, to)`. -/
theorem resolveState_sat (hst : st ∈ pending)
    (hk : k.installing = true) (hs : k.Sound) (hD : ¬ D → Bounded A size measure k) :
    (resolveState act size st k).Sat (fun progress k' => Pass A [st] k progress k')
      (fun _ k' => Runs A k k' ∧ Fault k') D := by
  unfold resolveState
  cases hv : k.perState st with
  | none =>
    by_contra hD'
    have := (hD hD').perState k .refl st hst
    rw [hv] at this
    exact Bool.false_ne_true this
  | some v =>
    have hfuel (hD' : ¬ D) (k' : Kernel Name) (hr : Runs A k k') :
        (k'.vector st).length < 0 + size := by
      rw [Nat.zero_add]
      exact (hD hD').length k' hr st
    refine (collect_sat hk hs (Nat.zero_le _) hfuel).bind fun names k₁ h1 => ?_
    obtain ⟨he, hsub, hr, hcases⟩ := h1
    have hnd : names.Nodup := ((he.runs.sound hs).nodup st).sublist hsub
    refine (((advanceAll_sat hA hst hnd (he.installing_eq.trans hk) (he.runs.sound hs) hr).mono
      (fun _ _ h => h) fun _ _ h => ⟨he.runs.trans h.1, h.2⟩).total D).bind fun _ k₂ h2 => ?_
    rcases h2 with ⟨rfl, rfl⟩ | ⟨hne, hm⟩
    · rcases hcases with ⟨rfl, hb⟩ | hmoved
      · refine .inr ⟨rfl, rfl, fun st' hst' n hn => ?_⟩
        obtain rfl := mem_singleton.1 hst'
        exact hb n hn not_mem_nil
      · exact .inl ⟨.inr hmoved.1, hmoved.2⟩
    · refine .inl ⟨.inl ?_, hm.after he.runs⟩
      rw [Bool.not_eq_true', isEmpty_eq_false_iff]
      exact hne

/-- The `for` loop. -/
theorem sweep_sat (hsts : ∀ st ∈ sts, st ∈ pending) (hk : k.installing = true)
    (hs : k.Sound) (hD : ¬ D → Bounded A size measure k) :
    (sweep act size sts k).Sat (Pass A sts k) (fun _ k' => Runs A k k' ∧ Fault k') D := by
  induction sts generalizing k with
  | nil => exact .inr ⟨rfl, rfl, nofun⟩
  | cons st sts ih =>
    refine (resolveState_sat hA measure (hsts st mem_cons_self) hk hs hD).bind
      fun progress k₁ h1 => ?_
    have hrun := h1.runs
    have hrest := (ih (fun st h => hsts st (mem_cons_of_mem _ h))
      (hrun.installing_eq.trans hk) (hrun.sound hs) fun hD' => (hD hD').runs hrun).mono
        (fun _ _ h => h) fun _ k' (h : Runs A k₁ k' ∧ Fault k') =>
          (⟨hrun.trans h.1, h.2⟩ : Runs A k k' ∧ Fault k')
    cases progress with
    | true =>
      rcases h1 with ⟨-, hm⟩ | ⟨hp, -⟩
      · exact .inl ⟨.inl rfl, hm⟩
      · nomatch hp
    | false =>
      refine hrest.mono (fun progress k₂ h2 => ?_) fun _ _ h => h
      rcases h1 with ⟨hc, hm⟩ | ⟨-, rfl, hb⟩
      · rcases h2 with ⟨hc', hm'⟩ | ⟨rfl, rfl, -⟩
        · exact .inl ⟨hc', hm.followed hm'.runs⟩
        · exact .inl ⟨.inr (hc.resolve_left Bool.false_ne_true), hm⟩
      · rcases h2 with h2 | ⟨hp, he, hb'⟩
        · exact .inl h2
        · exact .inr ⟨hp, he, forall_mem_cons.2 ⟨hb st mem_cons_self, hb'⟩⟩

/-- **The `while` loop.**  It makes progress only; where it returns, every context before
its last states is blocked, and where it throws, there is a fault in the descriptions. -/
theorem resolveLoop_sat
    (hk : k.installing = true) (hs : k.Sound) (hD : ¬ D → Bounded A size measure k)
    (hset : progress = false → k.stateRequirementsChanged = false → k.Settled)
    (hfuel : ¬ D → 1 ≤ fuel ∧
      (progress = true ∨ k.stateRequirementsChanged = true → measure k + 2 ≤ fuel)) :
    (resolveLoop act size fuel progress k).Sat (fun _ k' => Runs A k k' ∧ k'.Settled)
      (fun _ k' => Runs A k k' ∧ Fault k') D := by
  induction fuel generalizing progress k with
  | zero =>
    by_contra hD'
    exact absurd (hfuel hD').1 (by decide)
  | succ fuel ih =>
    unfold resolveLoop
    split_ifs with hgo
    · have hclear : Runs A k { k with stateRequirementsChanged := false } :=
        .single (.clear k)
      refine ((sweep_sat hA measure (fun _ h => h)
        (k := { k with stateRequirementsChanged := false }) hk hs
        fun hD' => (hD hD').runs hclear).mono (fun _ _ h => h) fun _ _ h =>
          ⟨hclear.trans h.1, h.2⟩).bind fun progress' k₁ h1 => ?_
      have hrun : Runs A k k₁ := hclear.trans h1.runs
      refine (ih (hrun.installing_eq.trans hk) (hrun.sound hs) (fun hD' => (hD hD').runs hrun)
        (fun hp hc => ?_) fun hD' => ?_).mono (fun _ _ h => ⟨hrun.trans h.1, h.2⟩)
          fun _ _ h => ⟨hrun.trans h.1, h.2⟩
      · rcases h1 with ⟨hc', -⟩ | ⟨-, rfl, hb⟩
        · rw [hp, hc] at hc'
          exact absurd hc' (by decide)
        · exact hb
      · have hf := (hfuel hD').2 (Bool.or_eq_true_iff.1 hgo)
        refine ⟨by omega, fun hgo' => ?_⟩
        rcases h1 with ⟨-, hm⟩ | ⟨rfl, rfl, -⟩
        · have := (hD hD').measure_lt (hm.after hclear)
          omega
        · exact hgo'.elim (nomatch ·) (nomatch ·)
    · rw [Bool.or_eq_true, not_or, Bool.not_eq_true, Bool.not_eq_true] at hgo
      exact ⟨.refl, hset hgo.1 hgo.2⟩

/-- **`resolve`**: the loop, with `installing` set and, where the loop returns, cleared. -/
theorem resolve_sat (hs : k.Sound)
    (hD : ¬ D → Bounded A fuel measure { k with installing := true } ∧
      measure { k with installing := true } + 2 ≤ fuel) :
    (resolve act fuel k).Sat
      (fun _ k' => ∃ k₁, Runs A { k with installing := true } k₁ ∧ k₁.Settled ∧
        k' = { k₁ with installing := false, settled := k₁.toCore :: k₁.settled })
      (fun _ k' => Runs A { k with installing := true } k' ∧ Fault k') D := by
  refine (resolveLoop_sat hA measure (k := { k with installing := true }) rfl hs
    (fun h => (hD h).1) (absurd · Bool.false_ne_true.symm) fun h => ?_).bind fun _ k₁ h1 =>
      ⟨k₁, h1.1, h1.2, rfl⟩
  have := (hD h).2
  exact ⟨by omega, fun _ => this⟩

end Loops

end NoxClassic.Kernel
