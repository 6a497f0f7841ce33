/-
# Depth-first closure of a set under successors

`enter` marks a node and, when it was not marked before, enters its successors
one after the other.  What it leaves marked depends on the marks it began with
(`Closure`): every root, and of the nodes that are new all successors, each of them
reached from a root.  No more is needed when the roots come in several calls, or
when the graph has changed between two of them.
-/

import Mathlib.Data.Set.Card
import NoxClassic.Lib.Run

namespace NoxClassic.Lib

open Relation

variable {α σ : Type*}

/-- The walk from a node.  `mark` is `none` where it has nothing to do. -/
def enter (next : α → List α) (mark : σ → α → Option σ) : ℕ → σ → α → Option σ
  | 0, _, _ => none
  | n + 1, s, a =>
    match mark s a with
    | none => some s
    | some t => run (enter next mark n) t (next a)

/-- `T` is what a walk from `roots` makes of the marked nodes `S`. -/
structure Closure (next : α → List α) (roots : List α) (S T : Set α) : Prop where
  mono : S ⊆ T
  root : ∀ r ∈ roots, r ∈ T
  closed : ∀ a ∈ T, a ∉ S → ∀ b ∈ next a, b ∈ T
  reach : ∀ a ∈ T, a ∉ S → ∃ r ∈ roots, ReflTransGen (fun a b => b ∈ next a) r a

variable {next : α → List α} {roots : List α} {S T U : Set α} {a : α}

theorem Closure.nil (S : Set α) : Closure next [] S S :=
  ⟨subset_rfl, by simp, fun a h hn => absurd h hn, fun a h hn => absurd h hn⟩

/-- One root after another. -/
theorem Closure.cons (h : Closure next [a] S U) (hl : Closure next roots U T) :
    Closure next (a :: roots) S T where
  mono := h.mono.trans hl.mono
  root := by
    intro r hr
    rcases List.mem_cons.1 hr with rfl | hr
    · exact hl.mono (h.root r List.mem_cons_self)
    · exact hl.root r hr
  closed := by
    intro b hb hbS c hc
    by_cases hbU : b ∈ U
    · exact hl.mono (h.closed b hbU hbS c hc)
    · exact hl.closed b hb hbU c hc
  reach := by
    intro b hb hbS
    by_cases hbU : b ∈ U
    · obtain ⟨r, hr, hrb⟩ := h.reach b hbU hbS
      exact ⟨r, by simp_all, hrb⟩
    · obtain ⟨r, hr, hrb⟩ := hl.reach b hb hbU
      exact ⟨r, List.mem_cons_of_mem a hr, hrb⟩

/-- A root that is marked already. -/
theorem Closure.known (h : a ∈ S) : Closure next [a] S S :=
  ⟨subset_rfl, by simpa using h, fun a h hn => absurd h hn, fun a h hn => absurd h hn⟩

/-- A root whose successors are walked. -/
theorem Closure.of_next (h : Closure next (next a) (insert a S) T) : Closure next [a] S T where
  mono := (Set.subset_insert a S).trans h.mono
  root := by simpa using h.mono (Set.mem_insert a S)
  closed := by
    intro b hb hbS c hc
    by_cases hba : b = a
    · exact h.root c (hba ▸ hc)
    · exact h.closed b hb (by simp [hba, hbS]) c hc
  reach := by
    intro b hb hbS
    by_cases hba : b = a
    · exact ⟨a, List.mem_cons_self, hba ▸ .refl⟩
    · obtain ⟨r, hr, hrb⟩ := h.reach b hb (by simp [hba, hbS])
      exact ⟨a, List.mem_cons_self, hrb.head hr⟩

/-- **What a walk with no marks finds**: the nodes reached from its roots. -/
theorem Closure.mem_iff (h : Closure next roots ∅ T) :
    a ∈ T ↔ ∃ r ∈ roots, ReflTransGen (fun a b => b ∈ next a) r a := by
  constructor
  · intro ha
    exact h.reach a ha (Set.notMem_empty a)
  · rintro ⟨r, hr, hra⟩
    induction hra with
    | refl => exact h.root r hr
    | tail _ hbc ih => exact h.closed _ ih (Set.notMem_empty _) _ hbc

/-- Two graphs that agree on a part that no edge leaves. -/
theorem reach_congr {next' : α → List α} {P : α → Prop} (heq : ∀ a, P a → next a = next' a)
    (hP : ∀ a, P a → ∀ b ∈ next a, P b) {b : α} (ha : P a)
    (h : ReflTransGen (fun a b => b ∈ next a) a b) : ReflTransGen (fun a b => b ∈ next' a) a b := by
  induction h using ReflTransGen.head_induction_on with
  | refl => exact .refl
  | head hac _ ih => exact (ih (hP _ ha _ hac)).head (heq _ ha ▸ hac)

/-- What the marks kept in a state are: `seen s`, in states that keep `I`.  A node without
successors may be marked twice. -/
structure Marks (next : α → List α) (mark : σ → α → Option σ) (seen : σ → Set α)
    (I : σ → Prop) : Prop where
  keep : ∀ {s a t}, I s → mark s a = some t → I t
  known : ∀ {s a}, I s → mark s a = none → a ∈ seen s
  insert : ∀ {s a t}, I s → mark s a = some t → seen t = insert a (seen s)
  fresh : ∀ {s a t}, I s → mark s a = some t → a ∉ seen s ∨ next a = []

section Walk

variable {mark : σ → α → Option σ} {seen : σ → Set α} {I : σ → Prop}
  (hm : Marks next mark seen I)

include hm

/-- **What the walk leaves marked.** -/
theorem closure_run_enter {n : ℕ} {s t : σ} (hs : I s)
    (h : run (enter next mark n) s roots = some t) :
    I t ∧ Closure next roots (seen s) (seen t) := by
  -- the outer induction is on the depth, the inner one on the nodes that are left
  induction n generalizing roots s t with
  | zero =>
    cases roots with
    | nil =>
      cases h
      exact ⟨hs, .nil _⟩
    | cons a roots => simp [enter] at h
  | succ n ihn =>
    induction roots generalizing s with
    | nil =>
      cases h
      exact ⟨hs, .nil _⟩
    | cons a roots ih =>
      obtain ⟨u, hu, h⟩ := run_cons_eq_some.1 h
      have hau : I u ∧ Closure next [a] (seen s) (seen u) := by
        rw [enter] at hu
        split at hu
        · rename_i hmark
          cases hu
          exact ⟨hs, .known (hm.known hs hmark)⟩
        · rename_i v hmark
          obtain ⟨hI, hc⟩ := ihn (hm.keep hs hmark) hu
          exact ⟨hI, .of_next (hm.insert hs hmark ▸ hc)⟩
      obtain ⟨hI, hc⟩ := ih hau.1 h
      exact ⟨hI, hau.2.cons hc⟩

/-- **The walk ends.**  Every level marks another node of `V`. -/
theorem exists_run_enter (V : Finset α) (hV : ∀ a, next a ≠ [] → a ∈ V) {n : ℕ} {s : σ}
    (hs : I s) (hn : (↑V \ seen s).ncard < n) (roots : List α) :
    ∃ t, run (enter next mark n) s roots = some t := by
  induction n generalizing roots s with
  | zero => omega
  | succ n ihn =>
    induction roots generalizing s with
    | nil => exact ⟨s, rfl⟩
    | cons a roots ih =>
      have hfin : (↑V \ seen s).Finite := V.finite_toSet.sdiff
      have hu : ∃ u, enter next mark (n + 1) s a = some u := by
        rw [enter]
        split
        · exact ⟨s, rfl⟩
        rename_i t hmark
        by_cases hnil : next a = []
        · exact ⟨t, by rw [hnil]; rfl⟩
        have ha := (hm.fresh hs hmark).resolve_right hnil
        have heq := hm.insert hs hmark
        refine ihn (hm.keep hs hmark) ?_ (next a)
        have hlt := Set.ncard_lt_ncard (s := ↑V \ seen t) (t := ↑V \ seen s)
          ⟨fun b hb => ⟨hb.1, fun h => hb.2 (heq ▸ .inr h)⟩,
            fun hsub => (hsub ⟨hV a hnil, ha⟩).2 (heq ▸ .inl rfl)⟩ hfin
        omega
      obtain ⟨u, hu⟩ := hu
      have hone : run (enter next mark (n + 1)) s [a] = some u := by rw [run_cons, hu]; rfl
      obtain ⟨hI, hc⟩ := closure_run_enter hm hs hone
      have hle := Set.ncard_le_ncard (Set.sdiff_subset_sdiff_right (s := ↑V) hc.mono) hfin
      obtain ⟨t, ht⟩ := ih hI (by omega)
      exact ⟨t, by rw [run_cons, hu]; exact ht⟩

end Walk

/-! ### Loops within a loop -/

theorem run_flatMap {β : Type*} {step : σ → α → Option σ} (f : β → List α) (s : σ) (l : List β) :
    run step s (l.flatMap f) = run (fun s b => run step s (f b)) s l := by
  induction l generalizing s with
  | nil => rfl
  | cons b l ih => simp [run_append, ih]

theorem run_map_filter {β : Type*} {step : σ → α → Option σ} (p : β → Bool) (f : β → α) (s : σ)
    (l : List β) : run step s ((l.filter p).map f) =
      run (fun s b => if p b then step s (f b) else some s) s l := by
  induction l generalizing s with
  | nil => rfl
  | cons b l ih => by_cases h : p b <;> simp [h, ih]

end NoxClassic.Lib
