/-
# Deleting rules while a lookup goes on

`Classifier::delete_rules` deletes each rule that `Cnode_result::next` returns before it asks
for the next one, so the lists that the result set is still going through change under it.  A
rule at or after a position that the result set holds is never deleted.
-/

import NoxClassic.Classifier.Reach

namespace NoxClassic.Classifier

open Cnode Classifier.Expr Lib List

variable {ε α : Type}

/-- One round of the loop of `Classifier::delete_rules`, with the result set. -/
def deleteRound (q : Query ε) (s : CnodeResult ε α × Classifier ε α) (_ : Unit) :
    Option (CnodeResult ε α × Classifier ε α) :=
  (s.1.next q).bind fun n => n.1.map fun r => (n.2, (s.2.deleteRule r.id).2)

variable [Expr ε] {F : ℕ → Prop} {q : Query ε} {c : Classifier ε α}

/-- The state of the loop: what is left to go through is in the tree, and each rule that matches is
left once. -/
structure Iterating (q : Query ε) (F : ℕ → Prop) (s : CnodeResult ε α × Classifier ε α) :
    Prop where
  valid : s.1.Valid q
  inv : Inv F s.2
  left : s.1.remaining ⊆ s.2.root.rules
  once : ((s.1.remaining.filter (hit q)).map Rule.id).Nodup

/-- **One round** deletes a rule that is not left. -/
theorem Iterating.round {s s' : CnodeResult ε α × Classifier ε α} {u : Unit}
    (h : Iterating q F s) (hround : deleteRound q s u = some s') : Iterating q F s' := by
  obtain ⟨⟨r, res⟩, hn, hmap⟩ := Option.bind_eq_some_iff.1 hround
  rcases CnodeResult.next_spec h.valid with ⟨hnone, -⟩ | ⟨res', hend, -⟩ |
    ⟨r', res', hnext, hv, hperm, -, hsub⟩
  · cases hn.symm.trans hnone
  · cases hn.symm.trans hend
    cases hmap
  cases hn.symm.trans hnext
  cases hmap
  have honce := (hperm.map Rule.id).nodup_iff.1 h.once
  rw [map_cons, nodup_cons] at honce
  obtain ⟨hr, hhit⟩ := mem_filter.1 (hperm.symm.subset mem_cons_self)
  obtain ⟨hinv, hrules⟩ := h.inv.deleteRule r'.id
  refine ⟨hv, hinv, fun t ht => hrules.symm.subset (mem_filter.2 ⟨?_, ?_⟩), honce.2⟩
  · exact h.left (hsub.subset (mem_cons_of_mem _ ht))
  · -- a rule that is left with the id of the deleted one would be it, and match a second time
    refine decide_eq_true fun heq => honce.1 (mem_map.2 ⟨t, mem_filter.2 ⟨ht, ?_⟩, heq⟩)
    rwa [inj_on_of_nodup_map h.inv.nodup_ids (h.left (hsub.subset (mem_cons_of_mem _ ht)))
      (h.left hr) heq]

/-- The number of rules deleted, and the map of rules. -/
theorem Inv.deleteAll_rules (h : Inv F c) {l : List (Rule ε α)} (hnd : (l.map Rule.id).Nodup)
    (hlive : ∀ r ∈ l, c.rules r.id ≠ none) (n : ℕ) :
    (l.foldl deleteOne (n, c)).1 = n + l.length ∧ ∀ id, (l.foldl deleteOne (n, c)).2.rules id =
      if id ∈ l.map Rule.id then none else c.rules id := by
  induction l generalizing c n with
  | nil => exact ⟨rfl, fun id => (if_neg not_mem_nil).symm⟩
  | cons r l ih =>
    rw [map_cons, nodup_cons] at hnd
    rw [forall_mem_cons] at hlive
    obtain ⟨hflag, -, hrules⟩ := h.deleteRule_entries r.id
    have hother : ∀ r' ∈ l, (c.deleteRule r.id).2.rules r'.id ≠ none := fun r' hr' => by
      have hne : r'.id ≠ r.id := fun heq => hnd.1 (heq ▸ mem_map_of_mem hr')
      rw [hrules, Function.update_of_ne hne]
      exact hlive.2 r' hr'
    obtain ⟨hcount, hmap⟩ := ih (h.deleteRule r.id).1 hnd.2 hother (n + 1)
    rw [foldl_cons, deleteOne, if_pos (hflag.2 hlive.1)]
    refine ⟨hcount.trans (by rw [length_cons]; omega), fun id => (hmap id).trans ?_⟩
    rw [hrules, map_cons]
    by_cases heq : id = r.id
    · rw [heq, Function.update_self, if_pos mem_cons_self, ite_self]
    · simp only [mem_cons, heq, false_or, Function.update_of_ne heq]

section Packets

variable {c : Classifier PacketExpr α} {first : Option (ℕ × ℕ)} {calls : List (Call PacketExpr α)}

/-- A lookup with an expression is answered. -/
theorem Inv.lookup_expr (h : Inv F c) (e : PacketExpr) :
    ∃ l, lookup e.query c.root = some l ∧ l.Perm (c.root.rules.filter (hit e.query)) ∧
      Sorted l := by
  rcases lookup_spec h.isNode ⟨h.wf, h.among, fun r _ hr => e.asked_query r hr _⟩ with
    ⟨-, ⟨f, -, hf⟩ | ⟨r, -, hr⟩⟩ | hl
  · rw [PacketExpr.values_query] at hf
    cases hf
  · cases hr
  · exact hl

/-- **`delete_rules` deletes the rules that match**, after every run of operations: from the tree
and from the map, and returns how many; lookups find the others as before.  In every round, the
rules at and after the positions that the result set holds are in the tree. -/
theorem matching_rules_deleted (hrun : run call (new first) calls = some c) (e : PacketExpr) :
    (∃ n c', c.deleteRules e.query = some (n, c') ∧
      n = (c.root.rules.filter (hit e.query)).length ∧
      c'.root.rules.Perm (c.root.rules.filter fun r => !hit e.query r) ∧
      (∀ id, c'.rules id =
        if id ∈ (c.root.rules.filter (hit e.query)).map Rule.id then none else c.rules id) ∧
      ∀ e' : PacketExpr, ∃ l l', lookup e'.query c.root = some l ∧
        lookup e'.query c'.root = some l' ∧ l'.Perm (l.filter fun r => !hit e.query r) ∧
        Sorted l') ∧
    ∀ res, getRules e.query c.root = some res → ∀ rounds s,
      run (deleteRound e.query) (res, c) rounds = some s →
        ∀ slot ∈ s.1.live, slot.rules ⊆ s.2.root.rules := by
  obtain ⟨h, -, -, -⟩ := sound_run hrun
  have hasked : ∀ r ∈ c.root.rules, hit e.query r = true → Asked (fun _ => True) e.query r :=
    fun r _ hr => e.asked_query r hr _
  have hnd : ((c.root.rules.filter (hit e.query)).map Rule.id).Nodup :=
    (filter_sublist.map _).nodup h.nodup_ids
  refine ⟨?_, fun res hres rounds s hs slot hslot r hr => ?_⟩
  · obtain ⟨l, hl, hperm, -⟩ := h.lookup_expr e
    have hdel : c.deleteRules e.query = some (l.foldl deleteOne (0, c)) := by
      rw [deleteRules_eq, hl]
      rfl
    have hlive : ∀ r ∈ l, c.rules r.id ≠ none := fun r hr hnone =>
      h.id_ne hnone r (mem_of_mem_filter (hperm.subset hr)) rfl
    obtain ⟨hcount, hmap⟩ := h.deleteAll_rules ((hperm.map _).nodup_iff.2 hnd) hlive 0
    obtain ⟨hinv, hrules⟩ := h.deleteRules hasked hdel
    refine ⟨_, _, hdel, by rw [hcount, hperm.length_eq, Nat.zero_add], hrules, fun id => ?_,
      fun e' => ?_⟩
    · rw [hmap, if_congr (hperm.map _).mem_iff rfl rfl]
    obtain ⟨l1, hl1, hperm1, -⟩ := h.lookup_expr e'
    obtain ⟨l2, hl2, hperm2, hs2⟩ := hinv.lookup_expr e'
    refine ⟨l1, l2, hl1, hl2, hperm2.trans (((hrules.filter _).trans (.of_eq ?_)).trans
      (hperm1.filter _).symm), hs2⟩
    rw [filter_filter, filter_filter]
    exact filter_congr fun r _ => Bool.and_comm _ _
  · rcases getRules_spec h.isNode ⟨h.wf, h.among, hasked⟩ with
      ⟨hnone, -⟩ | ⟨res', hres', hv, hperm, hsub⟩
    · cases hres.symm.trans hnone
    cases hres.symm.trans hres'
    have hstart : Iterating e.query (fun _ => True) (res, c) :=
      ⟨hv, h, hsub, (hperm.map Rule.id).nodup_iff.2 hnd⟩
    have hend := run_invariant (fun _ _ _ hs hround => hs.round hround) hstart hs
    exact hend.left (mem_flatMap.2 ⟨slot, hslot, hr⟩)

/-- Of two rules in a tree that is built, the one that matches is deleted. -/
theorem matching_rules_deleted_built :
    let e := PacketExpr.wild.setField .apSrc 0 0
    ∃ c, run call (new none) ((twoRules .apSrc).map .op) = some c ∧ c.root.rules.length = 2 ∧
      ∃ c', c.deleteRules e.query = some (1, c') ∧ c'.root.rules.length = 1 := by
  intro e
  obtain ⟨c, hrun, hvalues⟩ := Option.map_eq_some_iff.1 (by decide +kernel :
    (run call (new none) ((twoRules .apSrc).map .op)).map (fun c => (c.root.rules.length,
      (c.root.rules.filter (hit e.query)).length,
      (c.root.rules.filter fun r => !hit e.query r).length)) = some (2, 1, 1))
  obtain ⟨hlen, hvalues⟩ := Prod.mk.inj hvalues
  obtain ⟨hhits, hothers⟩ := Prod.mk.inj hvalues
  obtain ⟨⟨n, c', hdel, rfl, hrules, -⟩, -⟩ := matching_rules_deleted hrun e
  exact ⟨c, hrun, hlen, c', hhits ▸ hdel, hrules.length_eq.trans hothers⟩

end Packets

end NoxClassic.Classifier
