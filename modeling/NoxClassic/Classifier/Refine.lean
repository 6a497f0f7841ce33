/-
# The classifier refines a list of rules

What a classifier is for: the rules that are live, in a list, all of which are tried
(`liveStep`, `track`).  Whatever operations come one after the other, the rules in the tree
are the live ones, every rule points to its node and the tree is in order (`Inv`,
`Inv.step`).  So a lookup gives the live rules that match, each once, by priority, and the
shape of the tree does not matter (`lookup_refines`).
-/

import NoxClassic.Classifier.Lookup
import NoxClassic.Lib.Run

namespace NoxClassic.Classifier

open Function List Option Cnode Classifier.Expr Lib

variable {ε α : Type}

/-! ### The invariant -/

/-- A chain of one node. -/
theorem isNode_iff {t : Cnode ε α} : IsNode t ↔ t.values.length = 1 := by
  have hnil : ∀ {s : Cnode ε α}, s.values.length = 0 ↔ s = null := by
    intro s
    cases s with
    | null => exact ⟨fun _ => rfl, fun _ => rfl⟩
    | leaf | split => exact ⟨fun h => absurd h (Nat.succ_ne_zero _), fun h => by cases h⟩
  cases t with
  | null => exact ⟨fun h => absurd h.1 Bool.false_ne_true.symm, fun h => by cases h⟩
  | leaf a v rs next =>
    rw [values_leaf, length_cons, Nat.add_eq_right, hnil]
    refine ⟨fun h => ?_, fun h => h ▸ isNode_leaf a v rs⟩
    have hnext := h.2
    rw [withNext, leaf.injEq] at hnext
    exact hnext.2.2.2.symm
  | split a v rs f m cs any next =>
    rw [values_split, length_cons, Nat.add_eq_right, hnil]
    refine ⟨fun h => ?_, fun h => h ▸ isNode_split a v rs f m cs any⟩
    have hnext := h.2
    rw [withNext, split.injEq] at hnext
    exact hnext.2.2.2.2.2.2.2.symm

variable [Expr ε]

/-- The state of a classifier between operations, whose tree is split on fields among `F`. -/
structure Inv (F : ℕ → Prop) (c : Classifier ε α) : Prop where
  isNode : IsNode c.root
  wf : WF c.root
  ids : (c.root.entries.map fun e => e.2.id).Nodup
  addrs : c.root.addrs.Nodup
  lt : ∀ a ∈ c.root.addrs, a < c.next
  points : ∀ e ∈ c.root.entries, c.rules e.2.id = some (some e.1)
  live : ∀ id, c.rules id ≠ none → ∃ e ∈ c.root.entries, e.2.id = id
  among : ∀ f ∈ fields c.root, F f

variable {F : ℕ → Prop}

variable {c : Classifier ε α}

/-- New addresses are others. -/
theorem Inv.fresh (h : Inv F c) (k : ℕ) : (List.range' c.next k ++ c.root.addrs).Nodup := by
  refine nodup_append.2 ⟨nodup_range', h.addrs, fun a ha b hb => ?_⟩
  have hge := (mem_range'_1.1 ha).1
  have hlt := h.lt b hb
  omega

variable {id : ℕ}

/-- The rule that an id is mapped to, and where it is. -/
theorem Inv.entry (h : Inv F c) {node : Option ℕ} (hid : c.rules id = some node) :
    ∃ a, node = some a ∧ a ∈ c.root.addrs ∧ ∀ e ∈ c.root.entries, e.2.id = id → e.1 = a := by
  obtain ⟨e, he, rfl⟩ := h.live id (by rw [hid]; exact some_ne_none _)
  rw [h.points e he, some.injEq] at hid
  refine ⟨e.1, hid.symm, mem_addrs_of_mem_entries he, fun e' he' heq => ?_⟩
  have hp := h.points e' he'
  rw [heq, h.points e he, some.injEq, some.injEq] at hp
  exact hp.symm

theorem Inv.nodup_ids (h : Inv F c) : (c.root.rules.map Rule.id).Nodup := by
  rw [← map_id_entries]
  exact h.ids

/-- No rule has an id that is not in the map. -/
theorem Inv.id_ne (h : Inv F c) (hid : c.rules id = none) : ∀ r ∈ c.root.rules, r.id ≠ id := by
  rintro r hr rfl
  obtain ⟨e, he, rfl⟩ := mem_map.1 hr
  exact some_ne_none _ ((h.points e he).symm.trans hid)

variable {rules : IdMap}

/-- A tree that is rebuilt, with its pointers. -/
theorem Inv.rebuilt (hF : ∀ f < numFields ε, F f) (h : Inv F c) {root : Cnode ε α} {next : ℕ}
    (hre : Rebuilt c.root c.next (root, next))
    (hrep : Repoint c.root.entries root.entries c.rules rules) :
    Inv F { c with root := root, next := next, rules := rules } where
  isNode := isNode_iff.2 (by rw [hre.values]; exact isNode_iff.1 h.isNode)
  wf := hre.wf h.wf
  ids := by
    have hids := h.ids
    rw [map_id_entries] at hids ⊢
    exact (hre.rules.map Rule.id).nodup_iff.2 hids
  addrs := by
    obtain ⟨l, hperm, hsub⟩ := hre.addrs
    exact hperm.nodup_iff.1 (hsub.nodup (h.fresh _))
  lt a ha := by
    have hle := hre.le
    rcases mem_append.1 (hre.addrs.subset ha) with ha | ha
    · have hlt := (mem_range'_1.1 ha).2
      dsimp only at hlt hle ⊢
      omega
    · exact Nat.lt_of_lt_of_le (h.lt a ha) hle
  points := hrep.points h.points
  live id hid := by
    have hold : ∃ e ∈ c.root.entries, e.2.id = id := by
      by_contra hno
      have hframe := hrep.frame id fun e he heq => hno ⟨e, he, heq⟩
      exact hno (h.live id (hframe ▸ hid))
    obtain ⟨e, he, rfl⟩ := hold
    have hr := hre.rules.symm.subset (mem_map_of_mem (f := Prod.snd) he)
    obtain ⟨e', he', heq⟩ := mem_map.1 hr
    exact ⟨e', he', congrArg Rule.id heq⟩
  among f hf := (hre.fields f hf).elim (h.among f) (hF f)

/-! ### Adding rules -/

omit [Expr ε] in
/-- An id that is given is free. -/
theorem getId_free {loop : Bool} {counter : ℕ}
    (h : getId rules loop counter = some id) : rules id = none := by
  fun_induction getId rules loop counter with
  | case1 => cases h
  | case2 _ _ _ _ _ ih | case3 _ _ _ _ ih => exact ih h
  | case4 loop counter hfree =>
    cases h
    simpa using hfree

/-- **Adding a rule** keeps the invariant, and the rule comes to the others. -/
theorem Inv.addNewRule (h : Inv F c) (priority : ℕ) (expr : ε) (action : α) :
    Inv F (c.addNewRule priority expr action).2 ∧
      (c.addNewRule priority expr action).2.root.rules.Perm
        (((c.addNewRule priority expr action).1.map
          fun id => (⟨id, priority, expr, action⟩ : Rule ε α)).toList ++ c.root.rules) := by
  unfold Classifier.addNewRule
  cases hid : getId c.rules false c.idCounter with
  | none => exact ⟨{ h with }, .refl _⟩
  | some id =>
    have hfree := getId_free hid
    have hadd := addRule_spec (⟨id, priority, expr, action⟩ : Rule ε α) (t := c.root) 0 none
      c.next h.isNode.1
    have hnew : ∀ e ∈ c.root.entries, e.2.id ≠ id := fun e he =>
      h.id_ne hfree e.2 (mem_map_of_mem he)
    refine ⟨⟨?_, hadd.wf h.wf, ?_, ?_, ?_, ?_, ?_, ?_⟩, hadd.rules⟩
    · exact isNode_iff.2 (by rw [hadd.values]; exact isNode_iff.1 h.isNode)
    · refine (hadd.entries.map _).nodup_iff.2 (nodup_cons.2 ⟨?_, h.ids⟩)
      rintro hmem
      obtain ⟨e, he, heq⟩ := mem_map.1 hmem
      exact hnew e he heq
    · exact hadd.addrs.nodup_iff.2 (h.fresh _)
    · intro a ha
      have hle := hadd.le
      rcases mem_append.1 (hadd.addrs.subset ha) with ha | ha
      · have hlt := (mem_range'_1.1 ha).2
        dsimp only at hlt hle ⊢
        omega
      · exact Nat.lt_of_lt_of_le (h.lt a ha) hle
    · intro e he
      rcases mem_cons.1 (hadd.entries.subset he) with rfl | he
      · exact update_self ..
      · dsimp only
        rw [update_of_ne (hnew e he)]
        exact h.points e he
    · intro id' hid'
      by_cases heq : id' = id
      · exact ⟨_, hadd.entries.symm.subset mem_cons_self, heq.symm⟩
      · dsimp only at hid'
        rw [update_of_ne heq] at hid'
        obtain ⟨e, he, hide⟩ := h.live id' hid'
        exact ⟨e, hadd.entries.symm.subset (mem_cons_of_mem _ he), hide⟩
    · rw [fields_addRule]
      exact h.among

/-! ### Changing the list of a node -/

variable {rs : List (Rule ε α)} {q : Query ε} {op : Op ε α}
    {s s' : Classifier ε α × List (Rule ε α)}

omit [Expr ε] in
/-- Where ids are not repeated, removing the rule with an id is keeping the others. -/
theorem removeRule_eq (hnd : (rs.map Rule.id).Nodup) (id : ℕ) :
    removeRule id rs = rs.filter fun r => r.id ≠ id := by
  induction rs with
  | nil => rfl
  | cons r rs ih =>
    rw [map_cons, nodup_cons] at hnd
    by_cases hr : r.id = id
    · rw [removeRule, eraseP_cons_of_pos (by simpa using hr),
        filter_cons_of_neg (by simpa using hr)]
      refine (filter_eq_self.2 fun s hs => ?_).symm
      have hne : s.id ≠ r.id := fun heq => hnd.1 (heq ▸ mem_map_of_mem hs)
      simpa [← hr] using hne
    · rw [removeRule, eraseP_cons_of_neg (by simpa using hr),
        filter_cons_of_pos (by simpa using hr)]
      exact congrArg (r :: ·) (ih hnd.2)

/-- A rule with another priority if it has the id. -/
def reprioritize (id priority : ℕ) (r : Rule ε α) : Rule ε α :=
  if r.id = id then { r with priority := priority } else r

omit [Expr ε] in
theorem reprioritize_id (id priority : ℕ) (r : Rule ε α) :
    (reprioritize id priority r).id = r.id := by
  unfold reprioritize
  split <;> rfl

omit [Expr ε] in
theorem map_reprioritize_of_ne {priority : ℕ} (h : ∀ r ∈ rs, r.id ≠ id) :
    rs.map (reprioritize id priority) = rs := by
  have hid : ∀ r ∈ rs, reprioritize id priority r = r := fun r hr => if_neg (h r hr)
  rw [map_congr_left hid]
  exact map_id rs

omit [Expr ε] in
/-- Where ids are not repeated, changing the priority of the rule with an id changes no other. -/
theorem changeRulePriority_perm (hnd : (rs.map Rule.id).Nodup) (id priority : ℕ) :
    (changeRulePriority id priority rs).Perm (rs.map (reprioritize id priority)) := by
  unfold changeRulePriority
  cases hfind : rs.find? fun r => r.id = id with
  | none =>
    rw [map_reprioritize_of_ne]
    exact fun r hr => by simpa using find?_eq_none.1 hfind r hr
  | some r =>
    obtain ⟨hr, as, bs, rfl, has⟩ := find?_eq_some_iff_append.1 hfind
    have hr : r.id = id := by simpa using hr
    have has : ∀ s ∈ as, s.id ≠ id := by simpa using has
    have hbs : ∀ s ∈ bs, s.id ≠ id := fun s hs heq => by
      rw [map_append, map_cons] at hnd
      exact (nodup_cons.1 hnd.of_append_right).1 (hr ▸ heq ▸ mem_map_of_mem hs)
    have herase : (as ++ r :: bs).eraseP (fun r => r.id = id) = as ++ bs := by
      rw [eraseP_append_right _ (by simpa using has), eraseP_cons_of_pos (by simpa using hr)]
    rw [herase, map_append, map_cons, map_reprioritize_of_ne has,
      map_reprioritize_of_ne hbs, reprioritize, if_pos hr]
    exact (addRuleToList_perm _ _).trans perm_middle.symm

/-- A change of the list of a node as a change of each rule: `k` drops the rule with the id or
changes it, and keeps every other. -/
structure Changes (id : ℕ) (g : List (Rule ε α) → List (Rule ε α))
    (k : Rule ε α → Option (Rule ε α)) : Prop where
  keeps : Keeps g
  perm : ∀ rs : List (Rule ε α), (rs.map Rule.id).Nodup → (g rs).Perm (rs.filterMap k)
  other : ∀ r, r.id ≠ id → k r = some r
  id_eq : ∀ r r', k r = some r' → r'.id = r.id

omit [Expr ε] in
theorem filterMap_ne_id (id : ℕ) (rs : List (Rule ε α)) :
    (rs.filterMap fun r => if r.id = id then none else some r) = rs.filter fun r => r.id ≠ id := by
  rw [← filterMap_eq_filter]
  refine filterMap_congr fun r _ => ?_
  by_cases hr : r.id = id <;> simp [Option.guard, hr]

omit [Expr ε] in
theorem changes_removeRule (id : ℕ) :
    Changes id (removeRule id) (fun r : Rule ε α => if r.id = id then none else some r) where
  keeps := keeps_removeRule id
  perm rs hnd := by
    rw [removeRule_eq hnd, filterMap_ne_id]
  other r hr := if_neg hr
  id_eq r r' h := by
    split at h
    · cases h
    · exact some.inj h ▸ rfl

omit [Expr ε] in
theorem changes_changeRulePriority (id priority : ℕ) :
    Changes id (changeRulePriority id priority)
      (fun r : Rule ε α => some (reprioritize id priority r)) where
  keeps := keeps_changeRulePriority id priority
  perm rs hnd := by
    rw [filterMap_eq_map']
    exact changeRulePriority_perm hnd id priority
  other r hr := congrArg some (if_neg hr)
  id_eq r r' h := some.inj h ▸ reprioritize_id id priority r

/-- What is kept of a list, by a key that stays. -/
theorem map_filterMap_sublist {β γ δ : Type} {f : β → Option γ} {u : γ → δ} {w : β → δ}
    (h : ∀ b c, f b = some c → u c = w b) (l : List β) :
    ((l.filterMap f).map u).Sublist (l.map w) := by
  have hfilter : (l.filterMap f).map u = (l.filter fun b => (f b).isSome).map w := by
    induction l with
    | nil => rfl
    | cons b l ih => cases hf : f b <;> simp [hf, ih, h b]
  exact hfilter ▸ filter_sublist.map w

section Change

variable {c : Classifier ε α} {id a : ℕ} {g : List (Rule ε α) → List (Rule ε α)}
  {k : Rule ε α → Option (Rule ε α)}

/-- The entries after a change of the list of the node of a rule. -/
theorem Inv.entries_change (h : Inv F c) (hg : Changes id g k) (hid : c.rules id = some (some a)) :
    (modifyAt a g c.root).entries.Perm
      (c.root.entries.filterMap fun e => (k e.2).map (e.1, ·)) := by
  obtain ⟨a', heq, ha, hat⟩ := h.entry hid
  cases heq
  obtain ⟨rs, E, hperm, hE, hperm'⟩ := splits_modifyAt h.addrs ha
  have hrs : (rs.map Rule.id).Nodup := by
    have hids := (hperm.map fun e => e.2.id).nodup_iff.1 h.ids
    rw [List.map_append, List.map_map] at hids
    exact hids.of_append_left
  -- a rule elsewhere has another id
  have hother : (E.filterMap fun e => (k e.2).map (e.1, ·)) = E := by
    refine (filterMap_congr fun e he => ?_).trans filterMap_some
    have hne : e.2.id ≠ id := fun heq =>
      hE e he (hat e (hperm.symm.subset (mem_append_right _ he)) heq)
    rw [hg.other _ hne]
    rfl
  refine (hperm' g).trans (List.Perm.trans ?_ (hperm.filterMap _).symm)
  rw [filterMap_append, hother, filterMap_map]
  refine List.Perm.append_right E (((hg.perm rs hrs).map _).trans (.of_eq ?_))
  rw [map_filterMap]
  rfl

/-- A change of the list of the node of a rule keeps the invariant. -/
theorem Inv.change (h : Inv F c) (hg : Changes id g k) (hid : c.rules id = some (some a))
    (rules : IdMap) (hrules : ∀ r, (k r).isSome → rules r.id = c.rules r.id)
    (hlive : ∀ r, k r = none → rules r.id = none)
    (hother : ∀ id', id' ≠ id → rules id' = c.rules id') :
    Inv F { c with root := modifyAt a g c.root, rules := rules } ∧
      (modifyAt a g c.root).rules.Perm (c.root.rules.filterMap k) := by
  have hentries := h.entries_change hg hid
  have hmem : ∀ {e}, e ∈ (modifyAt a g c.root).entries ↔
      ∃ e' ∈ c.root.entries, ∃ r, k e'.2 = some r ∧ (e'.1, r) = e := by
    intro e
    rw [hentries.mem_iff, mem_filterMap]
    simp only [map_eq_some_iff]
  have hrulesPerm : (modifyAt a g c.root).rules.Perm (c.root.rules.filterMap k) := by
    refine (hentries.map Prod.snd).trans (.of_eq ?_)
    rw [Cnode.rules, map_filterMap, filterMap_map]
    refine filterMap_congr fun e _ => ?_
    cases hk : k e.2 with
    | none | some => simp [hk]
  have hids := map_filterMap_sublist (u := fun e => e.2.id) (w := fun e => e.2.id)
    (f := fun e : ℕ × Rule ε α => (k e.2).map (e.1, ·)) (fun e e' he => by
      obtain ⟨r, hk, rfl⟩ := map_eq_some_iff.1 he
      exact hg.id_eq _ _ hk) c.root.entries
  refine ⟨⟨?_, h.wf.modifyAt hg.keeps, ?_, ?_, ?_, ?_, ?_, ?_⟩, hrulesPerm⟩
  · exact isNode_iff.2 (by rw [values_modifyAt]; exact isNode_iff.1 h.isNode)
  · exact (hentries.map _).nodup_iff.2 (hids.nodup h.ids)
  · rw [addrs_modifyAt]
    exact h.addrs
  · rw [addrs_modifyAt]
    exact h.lt
  · intro e he
    obtain ⟨e', he', r, hk, rfl⟩ := hmem.1 he
    dsimp only
    rw [hg.id_eq _ _ hk, hrules e'.2 (by rw [hk]; rfl)]
    exact h.points e' he'
  · intro id' hid'
    have hknown : c.rules id' ≠ none := by
      by_cases heq : id' = id
      · rw [heq, hid]
        exact some_ne_none _
      · rw [← hother id' heq]
        exact hid'
    obtain ⟨e, he, rfl⟩ := h.live id' hknown
    cases hk : k e.2 with
    | none => exact absurd (hlive e.2 hk) hid'
    | some r => exact ⟨(e.1, r), hmem.2 ⟨e, he, r, hk, rfl⟩, hg.id_eq _ _ hk⟩
  · rw [fields_modifyAt]
    exact h.among

end Change

/-- **Deleting a rule** keeps the invariant and the other rules. -/
theorem Inv.deleteRule (h : Inv F c) (id : ℕ) :
    Inv F (c.deleteRule id).2 ∧
      (c.deleteRule id).2.root.rules.Perm (c.root.rules.filter fun r => r.id ≠ id) := by
  unfold Classifier.deleteRule
  cases hid : c.rules id with
  | none =>
    refine ⟨h, .of_eq (filter_eq_self.2 fun r hr => ?_).symm⟩
    simpa using h.id_ne hid r hr
  | some node =>
    obtain ⟨a, rfl, -, -⟩ := h.entry hid
    obtain ⟨hinv, hperm⟩ := h.change (changes_removeRule id) hid
      (update c.rules id none)
      (fun r hr => by
        refine update_of_ne (fun heq => ?_) _ _
        rw [if_pos heq] at hr
        exact Bool.false_ne_true hr)
      (fun r hr => by
        by_cases heq : r.id = id
        · rw [heq, update_self]
        · rw [if_neg heq] at hr
          cases hr)
      (fun id' hne => update_of_ne hne _ _)
    rw [filterMap_ne_id] at hperm
    exact ⟨hinv, hperm⟩

/-- **Changing a priority** keeps the invariant and everything else of the rules. -/
theorem Inv.setPriority (h : Inv F c) (id priority : ℕ) :
    Inv F (c.setPriority id priority).2 ∧
      (c.setPriority id priority).2.root.rules.Perm
        (c.root.rules.map (reprioritize id priority)) := by
  unfold Classifier.setPriority
  cases hid : c.rules id with
  | none => exact ⟨h, .of_eq (map_reprioritize_of_ne (h.id_ne hid)).symm⟩
  | some node =>
    obtain ⟨a, rfl, -, -⟩ := h.entry hid
    obtain ⟨hinv, hperm⟩ := h.change (changes_changeRulePriority id priority) hid
      c.rules (fun _ _ => rfl) (fun _ hr => by cases hr) (fun _ _ => rfl)
    rw [filterMap_eq_map'] at hperm
    exact ⟨hinv, hperm⟩

/-! ### Deleting the rules that match -/

/-- One rule of `delete_rules`. -/
def deleteOne (s : ℕ × Classifier ε α) (r : Rule ε α) : ℕ × Classifier ε α :=
  (if (s.2.deleteRule r.id).1 then s.1 + 1 else s.1, (s.2.deleteRule r.id).2)

omit [Expr ε] in
/-- The loop goes through what a lookup gives: the lists it goes on with are not touched. -/
theorem deleteLoop_eq (q : Query ε) (rounds : ℕ) (res : CnodeResult ε α) (deleted : ℕ)
    (c : Classifier ε α) :
    deleteLoop q rounds res deleted c =
      (res.drain q rounds).map fun l => l.foldl deleteOne (deleted, c) := by
  induction rounds generalizing res deleted c with
  | zero => rfl
  | succ rounds ih =>
    unfold deleteLoop CnodeResult.drain
    cases hn : res.next q with
    | none => rfl
    | some s =>
      obtain ⟨r, res'⟩ := s
      cases r with
      | none => rfl
      | some r =>
        dsimp only
        rw [ih, Option.map_map]
        rfl

omit [Expr ε] in
theorem deleteRules_eq (q : Query ε) (c : Classifier ε α) :
    c.deleteRules q = (lookup q c.root).map fun l => l.foldl deleteOne (0, c) := by
  unfold Classifier.deleteRules lookup
  rw [map_bind]
  exact congrArg _ (funext fun res => deleteLoop_eq q _ res 0 c)

/-- Deleting rules one after the other. -/
theorem Inv.deleteAll (h : Inv F c) (l : List (Rule ε α)) (n : ℕ) :
    Inv F (l.foldl deleteOne (n, c)).2 ∧ (l.foldl deleteOne (n, c)).2.root.rules.Perm
      (c.root.rules.filter fun r => r.id ∉ l.map Rule.id) := by
  induction l generalizing c n with
  | nil =>
    refine ⟨h, .of_eq (filter_eq_self.2 fun r _ => ?_).symm⟩
    simp
  | cons s l ih =>
    obtain ⟨hinv, hperm⟩ := h.deleteRule s.id
    obtain ⟨hinv', hperm'⟩ := ih hinv (if (c.deleteRule s.id).1 then n + 1 else n)
    refine ⟨hinv', hperm'.trans ((hperm.filter _).trans (.of_eq ?_))⟩
    rw [List.filter_filter]
    refine filter_congr fun r _ => ?_
    simp only [map_cons, mem_cons, not_or, Bool.decide_and]
    exact Bool.and_comm _ _

/-- **Deleting the rules that match** keeps the invariant and the other rules, for data that asks
for each rule that matches once. -/
theorem Inv.deleteRules {c' : Classifier ε α} (h : Inv F c) {n : ℕ}
    (hasked : ∀ r ∈ c.root.rules, hit q r = true → Asked F q r)
    (hdel : c.deleteRules q = some (n, c')) :
    Inv F c' ∧ c'.root.rules.Perm (c.root.rules.filter fun r => !hit q r) := by
  rw [deleteRules_eq, map_eq_some_iff] at hdel
  obtain ⟨l, hl, hfold⟩ := hdel
  rcases lookup_spec h.isNode ⟨h.wf, h.among, hasked⟩ with ⟨hnone, -⟩ | ⟨l', hl', hperm, -⟩
  · rw [hnone] at hl
    cases hl
  obtain rfl := some.inj (hl'.symm.trans hl)
  obtain ⟨hinv, hrules⟩ := h.deleteAll l' 0
  rw [hfold] at hinv hrules
  refine ⟨hinv, hrules.trans (.of_eq (filter_congr fun r hr => ?_))⟩
  -- a rule with the id of one that matches is that one
  have hiff : r.id ∈ l'.map Rule.id ↔ hit q r = true := by
    constructor
    · intro hmem
      obtain ⟨s, hs, heq⟩ := mem_map.1 hmem
      obtain ⟨hs, hhit⟩ := mem_filter.1 (hperm.subset hs)
      rwa [inj_on_of_nodup_map h.nodup_ids hs hr heq] at hhit
    · exact fun hhit => mem_map_of_mem (hperm.symm.subset (mem_filter.2 ⟨hr, hhit⟩))
  cases hh : hit q r with
  | true => simpa using hiff.2 hh
  | false => simpa [hh] using hiff

/-! ### Runs -/

/-- What an operation does to the live rules.  A new rule has the id that the classifier gives it;
without an id it is not added. -/
def liveStep (c : Classifier ε α) (live : List (Rule ε α)) : Op ε α → List (Rule ε α)
  | .addRule priority expr action =>
    match (c.addNewRule priority expr action).1 with
    | some id => live ++ [⟨id, priority, expr, action⟩]
    | none => live
  | .deleteRule id => live.filter fun r => r.id ≠ id
  | .deleteRules q => live.filter fun r => !hit q r
  | .changeRulePriority id priority => live.map (reprioritize id priority)
  | .build | .unbuild | .clean => live

/-- An operation on the classifier, with the live rules beside it. -/
def track (s : Classifier ε α × List (Rule ε α)) (op : Op ε α) :
    Option (Classifier ε α × List (Rule ε α)) :=
  (step s.1 op).map fun c => (c, liveStep s.1 s.2 op)

/-- The classifier holds the live rules. -/
structure Refines (F : ℕ → Prop) (s : Classifier ε α × List (Rule ε α)) : Prop where
  inv : Inv F s.1
  rules : s.1.root.rules.Perm s.2

/-- The data of a deletion asks for each rule that matches once. -/
def Op.Asks (F : ℕ → Prop) : Op ε α → Prop
  | .deleteRules q => ∀ r : Rule ε α, hit q r = true → Asked F q r
  | _ => True

/-- **One operation.** -/
theorem Refines.track (hF : ∀ f < numFields ε, F f) (h : Refines F s) (hop : op.Asks F)
    (hstep : Classifier.track s op = some s') : Refines F s' := by
  obtain ⟨c, hc, rfl⟩ := map_eq_some_iff.1 hstep
  have hinv := h.inv
  cases op with
  | addRule priority expr action =>
    cases hc
    obtain ⟨hinv', hperm⟩ := hinv.addNewRule priority expr action
    refine ⟨hinv', hperm.trans ?_⟩
    dsimp only [liveStep]
    cases (s.1.addNewRule priority expr action).1 with
    | none => exact h.rules
    | some id => exact (h.rules.cons _).trans (perm_append_singleton _ _).symm
  | deleteRule id =>
    cases hc
    obtain ⟨hinv', hperm⟩ := hinv.deleteRule id
    exact ⟨hinv', hperm.trans (h.rules.filter _)⟩
  | deleteRules q =>
    obtain ⟨d, hd, rfl⟩ := map_eq_some_iff.1 hc
    obtain ⟨hinv', hperm⟩ := hinv.deleteRules (fun r _ => hop r) hd
    exact ⟨hinv', hperm.trans (h.rules.filter _)⟩
  | changeRulePriority id priority =>
    cases hc
    obtain ⟨hinv', hperm⟩ := hinv.setPriority id priority
    exact ⟨hinv', hperm.trans (h.rules.map _)⟩
  | build =>
    cases hc
    have hre := build_rebuilt 0 s.1.root ⟨s.1.next, s.1.rules⟩
    exact ⟨hinv.rebuilt hF hre (build_repoint 0 _ _ hinv.ids hinv.lt), hre.rules.trans h.rules⟩
  | unbuild =>
    cases hc
    have hre := unbuild_rebuilt hinv.isNode ⟨s.1.next, s.1.rules⟩
    exact ⟨hinv.rebuilt hF hre (unbuild_repoint hinv.isNode _ hinv.ids hinv.lt),
      hre.rules.trans h.rules⟩
  | clean =>
    cases hc
    have hre := clean_rebuilt s.1.root s.1.next
    refine ⟨hinv.rebuilt hF hre ?_, hre.rules.trans h.rules⟩
    rw [entries_clean]
    exact .refl _ _

/-- A new tree, whether its root is a leaf or is split, holds no rules. -/
theorem inv_reset (first : Option (ℕ × ℕ)) (hfirst : ∀ p ∈ first, F p.1)
    (c : Classifier ε α) : Inv F (c.reset first) where
  isNode := by
    cases first with
    | none => exact isNode_leaf ..
    | some p => exact isNode_split ..
  wf := by cases first <;> simp [reset, WF, Under, Sorted]
  ids := by cases first <;> exact nodup_nil
  addrs := by cases first <;> exact nodup_singleton _
  lt := by cases first <;> simp [reset]
  points := by cases first <;> exact fun _ h => absurd h not_mem_nil
  live _ h := absurd rfl h
  among f hf := by
    cases first with
    | none => cases hf
    | some p =>
      obtain rfl := mem_singleton.1 hf
      exact hfirst p rfl

theorem refines_init : Refines F ((init, []) : Classifier ε α × List (Rule ε α)) :=
  ⟨inv_reset none nofun ⟨null, 0, fun _ => none, 1⟩, .refl _⟩

theorem refines_initSplit {field : ℕ} (hfield : F field) (buckets : ℕ) :
    Refines F ((initSplit field buckets, []) : Classifier ε α × List (Rule ε α)) :=
  ⟨inv_reset (some (field, buckets)) (fun _ hp => Option.mem_some.1 hp ▸ hfield)
    ⟨null, 0, fun _ => none, 1⟩, .refl _⟩

/-- **Every run of operations.** -/
theorem Refines.run (hF : ∀ f < numFields ε, F f) {ops : List (Op ε α)} (h : Refines F s)
    (hops : ∀ op ∈ ops, op.Asks F) (hrun : Lib.run Classifier.track s ops = some s') :
    Refines F s' :=
  run_invariant_of_along (fun _ _ _ hs hop hstep => hs.track hF hop hstep) h
    (Along.of_forall (fun op hop _ => hops op hop) s) hrun

/-- An operation that stops the program is a deletion, at a field of the tree or a live rule. -/
theorem Refines.track_none (h : Refines F s)
    (hop : op.Asks F) (hstep : Classifier.track s op = none) :
    ∃ q, op = .deleteRules q ∧ ((∃ f ∈ fields s.1.root, q.values f = none) ∨
      ∃ r ∈ s.2, q.matchesRule r.id r.expr = none) := by
  have hc := map_eq_none_iff.1 hstep
  cases op with
  | deleteRules q =>
    rw [step, map_eq_none_iff, deleteRules_eq, map_eq_none_iff] at hc
    refine ⟨q, rfl, ?_⟩
    rcases lookup_spec h.inv.isNode ⟨h.inv.wf, h.inv.among, fun r _ => hop r⟩ with
      ⟨-, hf | hr⟩ | ⟨l, hl, -⟩
    · exact .inl hf
    · obtain ⟨r, hr, hnone⟩ := hr
      exact .inr ⟨r, h.rules.subset hr, hnone⟩
    · rw [hc] at hl
      cases hl
  | addRule | deleteRule | changeRulePriority | build | unbuild | clean => cases hc

/-- **A lookup is a scan of the live rules**: it gives those that match, each once, by priority.
The program stops only at a field of the tree or a live rule. -/
theorem Refines.lookup (h : Refines F s)
    (hasked : ∀ r ∈ s.2, hit q r = true → Asked (· ∈ fields s.1.root) q r) :
    (Classifier.lookup q s.1.root = none ∧ ((∃ f ∈ fields s.1.root, q.values f = none) ∨
      ∃ r ∈ s.2, q.matchesRule r.id r.expr = none)) ∨
    ∃ l, Classifier.lookup q s.1.root = some l ∧ l.Perm (s.2.filter (hit q)) ∧
      (l.map Rule.id).Nodup ∧ Sorted l := by
  rcases lookup_spec h.inv.isNode
    ⟨h.inv.wf, fun _ => id, fun r hr => hasked r (h.rules.subset hr)⟩ with
    ⟨hnone, hf | hr⟩ | ⟨l, hl, hperm, hs⟩
  · exact .inl ⟨hnone, .inl hf⟩
  · obtain ⟨r, hr, hr'⟩ := hr
    exact .inl ⟨hnone, .inr ⟨r, h.rules.subset hr, hr'⟩⟩
  · refine .inr ⟨l, hl, hperm.trans (h.rules.filter _), ?_, hs⟩
    have hids := h.inv.ids
    rw [map_id_entries] at hids
    exact (hperm.map _).nodup_iff.2 ((filter_sublist.map _).nodup hids)

end NoxClassic.Classifier
