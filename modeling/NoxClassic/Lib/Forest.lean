/-
# Growing a spanning forest

A traversal keeps its vertices on a stack.  It takes the last one, joins it by an
edge to each neighbour that has not been seen, and moves these to the end of the
stack; a vertex that is taken unseen begins a new tree.  Vertices that are seen and
still to be taken therefore lie above all others, and belong to one tree.

`Explored` is what holds of the forest `T` grown so far in the graph `G` between
two visits, `Visiting` what holds during one.  When the stack is empty, `T` is
acyclic and connects whatever `G` does (`Explored.reachable_iff`).
-/

import Mathlib.Combinatorics.SimpleGraph.Acyclic

namespace NoxClassic.Lib

open List SimpleGraph

variable {V : Type*} {G T : SimpleGraph V}

/-- The forest between two visits. -/
structure Explored (G T : SimpleGraph V) (stack : List V) (seen : Finset V) : Prop where
  le : T ≤ G
  acyclic : T.IsAcyclic
  seen_of_adj : ∀ u v, T.Adj u v → u ∈ seen
  done : ∀ u ∈ seen, u ∉ stack → ∀ v, G.Adj u v → v ∈ seen ∧ T.Reachable u v
  waiting : ∀ u v, G.Adj u v → u ∉ seen → u ∈ stack
  nodup : stack.Nodup
  order : stack.Pairwise fun u v => u ∈ seen → v ∈ seen
  one_tree : ∀ u ∈ stack, ∀ v ∈ stack, u ∈ seen → v ∈ seen → T.Reachable u v

/-- The forest while `src` is visited.  `rest` is the stack without it, `next` are the vertices
seen from it for the first time, and `met` the neighbours looked at. -/
structure Visiting (G T : SimpleGraph V) (src : V) (rest next : List V) (seen : Finset V)
    (met : V → Prop) : Prop where
  le : T ≤ G
  acyclic : T.IsAcyclic
  seen_of_adj : ∀ u v, T.Adj u v → u ∈ seen
  src_seen : src ∈ seen
  src_not_mem : src ∉ rest
  done : ∀ u ∈ seen, u ∉ rest → u ≠ src → ∀ v, G.Adj u v → v ∈ seen ∧ T.Reachable u v
  one_tree : ∀ u ∈ rest, u ∈ seen → T.Reachable src u
  waiting : ∀ u v, G.Adj u v → u ∉ seen → u ∈ rest
  nodup : rest.Nodup
  next_nodup : next.Nodup
  next_subset : ∀ u ∈ next, u ∈ rest ∧ u ∈ seen
  order : rest.Pairwise fun u v => u ∈ seen ∧ u ∉ next → v ∈ seen ∧ v ∉ next
  met : ∀ v, met v → v ∈ seen ∧ T.Reachable src v

/-- Nothing has been seen. -/
theorem Explored.start {stack : List V} (hnodup : stack.Nodup)
    (hstack : ∀ u v, G.Adj u v → u ∈ stack) : Explored G ⊥ stack ∅ where
  le := bot_le
  acyclic := isAcyclic_bot
  seen_of_adj _ _ h := h.elim
  done u hu := absurd hu (Finset.notMem_empty u)
  waiting u v h _ := hstack u v h
  nodup := hnodup
  order := pairwise_of_forall fun u _ hu => absurd hu (Finset.notMem_empty u)
  one_tree u _ _ _ hu := absurd hu (Finset.notMem_empty u)

variable [DecidableEq V]

/-- **The last vertex of the stack is taken.** -/
theorem Explored.pop {rest : List V} {src : V} {seen : Finset V}
    (h : Explored G T (rest ++ [src]) seen) :
    Visiting G T src rest [] (insert src seen) fun _ => False := by
  obtain ⟨hnodup, -, hsrc⟩ := nodup_append.1 h.nodup
  have hsrc : src ∉ rest := fun hmem => hsrc src hmem src (mem_singleton_self src) rfl
  obtain ⟨horder, -, hlast⟩ := pairwise_append.1 h.order
  have hmem : src ∈ rest ++ [src] := mem_append_right _ (mem_singleton_self src)
  have hseen : ∀ u ∈ rest, u ∈ insert src seen → u ∈ seen := by
    intro u hu hs
    refine (Finset.mem_insert.1 hs).resolve_left ?_
    rintro rfl
    exact hsrc hu
  refine ⟨h.le, h.acyclic, fun u v huv => Finset.mem_insert_of_mem (h.seen_of_adj u v huv),
    Finset.mem_insert_self _ _, hsrc, ?_, ?_, ?_, hnodup, nodup_nil,
    fun _ hu => absurd hu not_mem_nil, ?_, fun _ hv => hv.elim⟩
  · intro u hu hrest hne v huv
    have hu := (Finset.mem_insert.1 hu).resolve_left hne
    have hstack : u ∉ rest ++ [src] := by simp [hrest, hne]
    obtain ⟨hv, hr⟩ := h.done u hu hstack v huv
    exact ⟨Finset.mem_insert_of_mem hv, hr⟩
  · intro u hu hs
    -- a seen vertex below makes the one taken seen
    have hus := hseen u hu hs
    have hss := hlast u hu src (mem_singleton_self src) hus
    exact h.one_tree src hmem u (mem_append_left _ hu) hss hus
  · intro u v huv hu
    rw [Finset.mem_insert, not_or] at hu
    have := h.waiting u v huv hu.2
    rw [mem_append, mem_singleton] at this
    exact this.resolve_right hu.1
  · refine horder.imp_of_mem fun {u v} hu hv huv hs => ?_
    exact ⟨Finset.mem_insert_of_mem (huv (hseen u hu hs.1)), not_mem_nil⟩

variable {src dst : V} {rest next : List V} {seen : Finset V} {met : V → Prop}

omit [DecidableEq V] in
/-- **A neighbour that has been seen is in the tree already.** -/
theorem Visiting.skip (h : Visiting G T src rest next seen met) (hadj : G.Adj src dst ∨ dst = src)
    (hdst : dst ∈ seen) : Visiting G T src rest next seen fun v => met v ∨ v = dst := by
  have hr : T.Reachable src dst := by
    rcases hadj with hadj | rfl
    · by_cases hrest : dst ∈ rest
      · exact h.one_tree dst hrest hdst
      · exact (h.done dst hdst hrest hadj.ne' src hadj.symm).2.symm
    · exact Reachable.refl _
  refine { h with met := ?_ }
  rintro v (hv | rfl)
  · exact h.met v hv
  · exact ⟨hdst, hr⟩

section

variable (h : Visiting G T src rest next seen met)
include h

/-- **A neighbour that has not been seen is joined to the forest.** -/
theorem Visiting.discover (hadj : G.Adj src dst) (hdst : dst ∉ seen) :
    Visiting G (T ⊔ edge src dst) src rest (next ++ [dst]) (insert dst seen)
      fun v => met v ∨ v = dst := by
  have hrest : dst ∈ rest := h.waiting dst src hadj.symm hdst
  have hne : src ≠ dst := hadj.ne
  have hedge : (T ⊔ edge src dst).Adj src dst := by
    rw [sup_adj, edge_adj]
    exact .inr ⟨.inl ⟨rfl, rfl⟩, hne⟩
  have hmono : T ≤ T ⊔ edge src dst := le_sup_left
  -- an unseen vertex has no edge yet
  have hisolated : ¬ T.Reachable src dst := by
    intro hr
    obtain ⟨v, hv⟩ : ∃ v, T.Adj dst v := by
      obtain ⟨p⟩ := hr.symm
      cases p with
      | nil => exact absurd rfl hne
      | cons hv _ => exact ⟨_, hv⟩
    exact hdst (h.seen_of_adj dst v hv)
  have hnext : dst ∉ next := fun hn => hdst (h.next_subset dst hn).2
  refine ⟨sup_le h.le ((edge_le_iff G).2 (.inr hadj)),
    h.acyclic.sup_edge_of_not_reachable hisolated, ?_, Finset.mem_insert_of_mem h.src_seen,
    h.src_not_mem, ?_, ?_, ?_, h.nodup, ?_, ?_, ?_, ?_⟩
  · intro u v huv
    rw [sup_adj, edge_adj] at huv
    rcases huv with huv | ⟨⟨rfl, -⟩ | ⟨rfl, -⟩, -⟩
    · exact Finset.mem_insert_of_mem (h.seen_of_adj u v huv)
    · exact Finset.mem_insert_of_mem h.src_seen
    · exact Finset.mem_insert_self _ _
  · intro u hu hur hus v huv
    have hud : u ≠ dst := fun he => hur (he ▸ hrest)
    obtain ⟨hv, hr⟩ := h.done u ((Finset.mem_insert.1 hu).resolve_left hud) hur hus v huv
    exact ⟨Finset.mem_insert_of_mem hv, hr.mono hmono⟩
  · intro u hu hs
    rcases Finset.mem_insert.1 hs with rfl | hs
    · exact hedge.reachable
    · exact (h.one_tree u hu hs).mono hmono
  · intro u v huv hu
    exact h.waiting u v huv fun hs => hu (Finset.mem_insert_of_mem hs)
  · exact h.next_nodup.append (nodup_singleton dst) (disjoint_singleton.2 hnext)
  · intro u hu
    rcases mem_append.1 hu with hu | hu
    · obtain ⟨hr, hs⟩ := h.next_subset u hu
      exact ⟨hr, Finset.mem_insert_of_mem hs⟩
    · obtain rfl := mem_singleton.1 hu
      exact ⟨hrest, Finset.mem_insert_self _ _⟩
  · -- the vertices seen before the visit are the same
    have hsame : ∀ u, (u ∈ insert dst seen ∧ u ∉ next ++ [dst]) ↔ u ∈ seen ∧ u ∉ next := by
      intro u
      rw [Finset.mem_insert, mem_append, mem_singleton]
      constructor
      · rintro ⟨hs | hs, hn⟩
        · exact absurd (.inr hs) hn
        · exact ⟨hs, fun hu => hn (.inl hu)⟩
      · rintro ⟨hs, hn⟩
        refine ⟨.inr hs, ?_⟩
        rintro (hu | rfl)
        · exact hn hu
        · exact hdst hs
    refine h.order.imp fun {u v} huv => ?_
    rw [hsame, hsame]
    exact huv
  · rintro v (hv | rfl)
    · obtain ⟨hs, hr⟩ := h.met v hv
      exact ⟨Finset.mem_insert_of_mem hs, hr.mono hmono⟩
    · exact ⟨Finset.mem_insert_self _ _, hedge.reachable⟩

theorem Visiting.mem_diff (u : V) :
    u ∈ rest.diff next.reverse ↔ u ∈ rest ∧ u ∉ next := by
  rw [h.nodup.mem_sdiff_iff, mem_reverse]

/-- The new vertices were on the stack. -/
theorem Visiting.mem_stack (u : V) :
    u ∈ rest.diff next.reverse ++ next.reverse ↔ u ∈ rest := by
  rw [mem_append, h.mem_diff, mem_reverse]
  constructor
  · rintro (hu | hu)
    · exact hu.1
    · exact (h.next_subset u hu).1
  · intro hu
    by_cases hn : u ∈ next
    · exact .inr hn
    · exact .inl ⟨hu, hn⟩

/-- **All neighbours have been looked at**, and the new ones go to the end of the stack. -/
theorem Visiting.finish (hmet : ∀ v, G.Adj src v → met v) :
    Explored G T (rest.diff next.reverse ++ next.reverse) seen := by
  refine ⟨h.le, h.acyclic, h.seen_of_adj, ?_, ?_, ?_, ?_, ?_⟩
  · intro u hu hs v huv
    rw [h.mem_stack] at hs
    by_cases hsrc : u = src
    · subst hsrc
      exact h.met v (hmet v huv)
    · exact h.done u hu hs hsrc v huv
  · intro u v huv hu
    rw [h.mem_stack]
    exact h.waiting u v huv hu
  · refine (h.nodup.diff).append (nodup_reverse.2 h.next_nodup) ?_
    intro u hu hu'
    exact ((h.mem_diff u).1 hu).2 (mem_reverse.1 hu')
  · rw [pairwise_append]
    refine ⟨?_, pairwise_of_forall_mem_list ?_, ?_⟩
    · rw [h.nodup.sdiff_eq_filter]
      refine (h.order.filter _).imp_of_mem fun {u v} hu _ huv hs => (huv ⟨hs, ?_⟩).1
      simpa using (mem_filter.1 hu).2
    all_goals
      intro u _ v hv _
      exact (h.next_subset v (mem_reverse.1 hv)).2
  · intro u hu v hv hus hvs
    rw [h.mem_stack] at hu hv
    exact (h.one_tree u hu hus).symm.trans (h.one_tree v hv hvs)

/-- The stack keeps its length during a visit. -/
theorem Visiting.length_finish :
    (rest.diff next.reverse ++ next.reverse).length = rest.length := by
  have hsub : next.reverse.Subperm rest :=
    subperm_of_subset (nodup_reverse.2 h.next_nodup)
      fun u hu => (h.next_subset u (mem_reverse.1 hu)).1
  have hperm := subperm_append_diff_self_of_count_le (subperm_ext_iff.1 hsub)
  exact (perm_append_comm.trans hperm).length_eq

end

omit [DecidableEq V] in
/-- **The forest connects what the graph connects.** -/
theorem Explored.reachable_iff (h : Explored G T [] seen) (u v : V) :
    T.Reachable u v ↔ G.Reachable u v := by
  constructor
  · exact fun hr => hr.mono h.le
  have hadj : ∀ u v, G.Adj u v → T.Reachable u v := by
    intro u v huv
    have hu : u ∈ seen := by
      by_contra hu
      nomatch h.waiting u v huv hu
    exact (h.done u hu not_mem_nil v huv).2
  rintro ⟨p⟩
  induction p with
  | nil => exact Reachable.refl _
  | cons huv _ ih => exact (hadj _ _ huv).trans ih

end NoxClassic.Lib
