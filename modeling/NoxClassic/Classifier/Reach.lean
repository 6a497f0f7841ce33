/-
# The classifier between operations

What holds of a classifier after every sequence of operations, resets among them: a rule of
the map is in the list of one node, to which it points; lists are sorted; a rule is below the
child that has its value; no path splits twice on a field; ids are given out as long as one is
free.
-/

import NoxClassic.Classifier.Packet

namespace NoxClassic.Classifier

open Cnode Classifier.Expr Lib Option List

variable {ε α : Type}

/-! ### Ids -/

section Ids

variable {rules : IdMap} {loop : Bool} {counter id : ℕ}

theorem getId_bounds (hpos : 1 ≤ counter) (hle : counter ≤ maxId)
    (h : getId rules loop counter = some id) : 1 ≤ id ∧ id ≤ maxId := by
  fun_induction getId rules loop counter with
  | case1 => cases h
  | case2 _ _ _ _ _ ih => exact ih (Nat.le_refl 1) (Nat.le_trans hpos hle) h
  | case3 _ _ _ _ ih => exact ih (by omega) (by omega) h
  | case4 =>
    cases h
    exact ⟨hpos, hle⟩

/-- Where no id is given, all have been looked at: those from the counter on and, if it has not
started again at 1 before, all of them. -/
theorem getId_none (h : getId rules loop counter = none) :
    (∀ id, counter ≤ id → id ≤ maxId → rules id ≠ none) ∧
      (loop = false → ∀ id, 1 ≤ id → id ≤ maxId → rules id ≠ none) := by
  fun_induction getId rules loop counter with
  | case1 counter hused hmax =>
    refine ⟨fun id hge hle => ?_, fun hloop => absurd hloop (by decide)⟩
    obtain rfl : id = counter := by omega
    exact isSome_iff_ne_none.1 hused
  | case2 loop counter hused hmax hloop ih =>
    obtain ⟨hall, -⟩ := ih h
    refine ⟨fun id hge hle => ?_, fun _ => hall⟩
    obtain rfl : id = counter := by omega
    exact isSome_iff_ne_none.1 hused
  | case3 loop counter hused hmax ih =>
    obtain ⟨hfrom, hall⟩ := ih h
    refine ⟨fun id hge hle => ?_, hall⟩
    rcases Nat.eq_or_lt_of_le hge with rfl | hlt
    · exact isSome_iff_ne_none.1 hused
    · exact hfrom id hlt hle
  | case4 => cases h

end Ids

/-! ### Split fields -/

/-- Below nodes that are split on `above`, no path splits twice on a field. -/
def Distinct (above : List ℕ) : Cnode ε α → Prop
  | null => True
  | leaf _ _ _ next => Distinct above next
  | split _ _ _ f _ cs any next =>
    f ∉ above ∧ Distinct (f :: above) cs ∧ Distinct (f :: above) any ∧ Distinct above next

variable {above : List ℕ} {path : Path} {t : Cnode ε α}

section

variable (h : Distinct above t)
include h

theorem Distinct.modifyAt (addr : ℕ)
    (g : List (Rule ε α) → List (Rule ε α)) : Distinct above (modifyAt addr g t) := by
  induction t generalizing above with
  | null => trivial
  | leaf a v rs next ih => exact ih h
  | split a v rs f m cs any next ihc iha ihn =>
    obtain ⟨hf, hc, ha, hn⟩ := h
    exact ⟨hf, ihc hc, iha ha, ihn hn⟩

theorem Distinct.prune : Distinct above (prune t) := by
  refine prune_induction (P := fun t t' => ∀ above, Distinct above t → Distinct above t')
    (fun _ => id) ?_ ?_ ?_ ?_ t above h
  · exact fun _ _ _ ih => ih
  · exact fun _ _ _ _ ih => ih
  · exact fun _ _ _ _ _ _ _ _ _ ihn above h => ihn above h.2.2.2
  · intro a v rs f m cs any next ihc iha ihn above ⟨hf, hc, ha, hn⟩
    exact ⟨hf, ihc _ hc, iha _ ha, ihn _ hn⟩

theorem Distinct.clean : Distinct above (clean t) := by
  cases t with
  | null | leaf => exact h
  | split => exact ⟨h.1, h.2.1.prune, h.2.2.1.prune, h.2.2.2⟩

theorem Distinct.unbuild (heap : Heap) : Distinct above (unbuild t heap).1 := by
  cases t with
  | null | leaf => exact h
  | split => trivial

theorem Distinct.withNext {s : Cnode ε α} (hs : Distinct above s) :
    Distinct above (t.withNext s) := by
  cases t with
  | null | leaf => exact hs
  | split => exact ⟨h.1, h.2.1, h.2.2.1, hs⟩

end

variable [Expr ε]

theorem Distinct.addRule (h : Distinct above t) (r : Rule ε α) (path : Path)
    (sel : Option Value) (n : ℕ) : Distinct above (addRule r t path sel n).tree := by
  induction t generalizing above path sel n with
  | null => trivial
  | leaf a v rs next ih =>
    unfold Classifier.addRule
    split
    · exact h
    · exact ih h path sel n
  | split a v rs f m cs any next ihc iha ihn =>
    obtain ⟨hf, hc, ha, hn⟩ := h
    unfold Classifier.addRule
    split
    · split
      · exact ⟨hf, hc, ha, hn⟩
      split
      · split
        · exact ⟨hf, ihc hc .., ha, hn⟩
        · exact ⟨hf, hc, ha, hn⟩
      · split
        · exact ⟨hf, hc, trivial, hn⟩
        · exact ⟨hf, hc, iha ha .., hn⟩
    · exact ⟨hf, hc, ha, ihn hn ..⟩

variable (ε) in
/-- The path has the fields `above`. -/
def Marked (path : Path) (above : List ℕ) : Prop :=
  ∀ g ∈ above, g < numFields ε → path &&& masks g ≠ 0

omit [Expr ε] in
theorem masks_self_ne {i : ℕ} (hi : i < 32) (path : Path) : (path ||| masks i) &&& masks i ≠ 0 := by
  intro h
  have hbit := congrArg (fun b : BitVec 32 => b.getLsbD i) h
  simp [masks, hi] at hbit

theorem Marked.cons (h : Marked ε path above) (f : ℕ) :
    Marked ε (path ||| masks f) (f :: above) := by
  intro g hg hlt
  rcases mem_cons.1 hg with rfl | hg
  · exact masks_self_ne (Nat.lt_of_lt_of_le hlt numFields_le) path
  · intro hzero
    rw [BitVec.and_comm, BitVec.and_or_distrib_left] at hzero
    refine h g hg hlt ?_
    rw [BitVec.and_comm]
    exact (BitVec.or_eq_zero_iff.1 hzero).1

theorem Marked.not_mem {f : ℕ} (h : Marked ε path above) (hf : f ∈ free ε path) : f ∉ above := by
  obtain ⟨hlt, hzero⟩ := mem_filter.1 hf
  exact fun hmem => h f hmem (mem_range.1 hlt) (of_decide_eq_true hzero)

/-- Building keeps the paths without repetition. -/
def KeepsPaths (build : Path → Cnode ε α → ℕ → Cnode ε α × ℕ) : Prop :=
  ∀ path above t n, Marked ε path above → Distinct above t → Distinct above (build path t n).1

omit [Expr ε] in
theorem Leaves.distinct (h : Leaves t) : Distinct above t := by
  induction t with
  | null => trivial
  | leaf _ _ _ _ ih => exact ih h
  | split => nomatch h

theorem KeepsPaths.splitLeaf {build : Path → Cnode ε α → ℕ → Cnode ε α × ℕ}
    {rs : List (Rule ε α)} {c : ℕ × ℕ} (hbuild : KeepsPaths build) (hm : Marked ε path above)
    (hc : splitChoice path rs = some c) (a : ℕ) (v : Value) (n : ℕ) :
    Distinct above (splitLeaf build path a v rs c.1 c.2 n).1 := by
  obtain ⟨rs', cs, any, k, he, -, -, -, -, -, hleaves⟩ := addRules_spec path rs
    [] null null n (wf_split_nil a v c.1 c.2)
  obtain ⟨hcs, hany⟩ := hleaves ⟨trivial, trivial⟩
  unfold Classifier.splitLeaf
  rw [he]
  exact ⟨hm.not_mem (splitChoice_mem hc), hbuild _ _ cs k (hm.cons _) hcs.distinct,
    hbuild _ _ any _ (hm.cons _) hany.distinct, trivial⟩

theorem keepsPaths_buildCopy (levels : ℕ) :
    KeepsPaths (buildCopy levels : Path → Cnode ε α → ℕ → Cnode ε α × ℕ) := by
  induction levels with
  | zero => exact fun _ _ t n _ h => h
  | succ levels ih =>
    intro path above t n hm h
    unfold buildCopy
    induction t generalizing n with
    | null => trivial
    | leaf a v rs next ihn =>
      unfold buildCopyWith
      cases hc : splitChoice path rs with
      | none => exact Distinct.withNext (t := leaf a v rs null) trivial (ihn _ h)
      | some c => exact (ih.splitLeaf hm hc a v n).withNext (ihn _ h)
    | split a v rs f m cs any next _ _ ihn =>
      obtain ⟨hf, hc, ha, hn⟩ := h
      exact ⟨hf, ih _ _ cs n (hm.cons f) hc, ih _ _ any _ (hm.cons f) ha, ihn _ hn⟩

theorem Distinct.build (h : Distinct above t) (hm : Marked ε path above) (heap : Heap) :
    Distinct above (build path t heap).1 := by
  induction t generalizing path above heap with
  | null => trivial
  | leaf a v rs next ih =>
    unfold Classifier.build
    cases hc : splitChoice path rs with
    | none => exact ih h hm heap
    | some c =>
      exact ((keepsPaths_buildCopy _).splitLeaf hm hc heap.next v _).withNext (ih h hm _)
  | split a v rs f m cs any next ihc iha ihn =>
    obtain ⟨hf, hc, ha, hn⟩ := h
    exact ⟨hf, ihc hc (hm.cons f) heap, iha ha (hm.cons f) _, ihn hn hm _⟩

/-! ### Every operation -/

/-- The classifier between operations. -/
structure Sound (c : Classifier ε α) : Prop where
  inv : Inv (fun _ => True) c
  distinct : Distinct [] c.root
  counter : 1 ≤ c.idCounter ∧ c.idCounter ≤ maxId
  ids : ∀ r ∈ c.root.rules, 1 ≤ r.id ∧ r.id ≤ maxId

variable {c c' : Classifier ε α}

theorem sound_reset (first : Option (ℕ × ℕ)) (c : Classifier ε α) : Sound (c.reset first) where
  inv := inv_reset first (fun _ _ => trivial) c
  distinct := by cases first <;> simp [reset, Distinct]
  counter := ⟨Nat.le_refl 1, (by decide : 1 ≤ maxId)⟩
  ids := by cases first <;> exact fun _ h => absurd h not_mem_nil

theorem Sound.addNewRule (h : Sound c) (priority : ℕ) (expr : ε) (action : α) :
    Sound (c.addNewRule priority expr action).2 := by
  obtain ⟨hinv, hperm⟩ := h.inv.addNewRule priority expr action
  unfold Classifier.addNewRule at hinv hperm ⊢
  cases hid : getId c.rules false c.idCounter with
  | none =>
    rw [hid] at hinv
    exact ⟨hinv, h.distinct, (by decide : 1 ≤ maxId ∧ maxId ≤ maxId), h.ids⟩
  | some id =>
    rw [hid] at hinv hperm
    have hbounds := getId_bounds h.counter.1 h.counter.2 hid
    refine ⟨hinv, h.distinct.addRule .., ?_, fun r hr => ?_⟩
    · dsimp only
      split
      · decide
      · exact hbounds
    · rcases mem_cons.1 (hperm.subset hr) with rfl | hr
      · exact hbounds
      · exact h.ids r hr

theorem Sound.deleteRule (h : Sound c) (id : ℕ) : Sound (c.deleteRule id).2 := by
  obtain ⟨hinv, hperm⟩ := h.inv.deleteRule id
  refine ⟨hinv, ?_, ?_, fun r hr => h.ids r (mem_of_mem_filter (hperm.subset hr))⟩ <;>
    unfold Classifier.deleteRule <;> rcases c.rules id with _ | _ | a
  · exact h.distinct
  · exact h.distinct
  · exact h.distinct.modifyAt ..
  all_goals exact h.counter

theorem Sound.setPriority (h : Sound c) (id priority : ℕ) :
    Sound (c.setPriority id priority).2 := by
  obtain ⟨hinv, hperm⟩ := h.inv.setPriority id priority
  refine ⟨hinv, ?_, ?_, fun r hr => ?_⟩
  · unfold Classifier.setPriority
    split
    · exact h.distinct.modifyAt ..
    · exact h.distinct
  · unfold Classifier.setPriority
    split <;> exact h.counter
  · obtain ⟨r', hr', rfl⟩ := mem_map.1 (hperm.subset hr)
    rw [reprioritize_id]
    exact h.ids r' hr'

/-- The operations that change the shape of the tree only. -/
theorem Sound.reshape (h : Sound c) {root : Cnode ε α} {next : ℕ} {rules : IdMap}
    (hd : Distinct [] root) (hre : Rebuilt c.root c.next (root, next))
    (hrep : Repoint c.root.entries root.entries c.rules rules) :
    Sound { c with root := root, next := next, rules := rules } :=
  ⟨h.inv.rebuilt (fun _ _ => trivial) hre hrep, hd, h.counter,
    fun r hr => h.ids r (hre.rules.subset hr)⟩

theorem Sound.step {op : Op ε α} (h : Sound c) (hstep : step c op = some c') : Sound c' := by
  have hinv := h.inv
  cases op with
  | addRule priority expr action =>
    cases hstep
    exact h.addNewRule ..
  | deleteRule id =>
    cases hstep
    exact h.deleteRule id
  | deleteRules q =>
    obtain ⟨⟨n, d⟩, hd, rfl⟩ := map_eq_some_iff.1 hstep
    rw [deleteRules_eq] at hd
    obtain ⟨l, -, hl⟩ := map_eq_some_iff.1 hd
    have hfold : Sound (l.foldl deleteOne (0, c)).2 :=
      foldlRecOn (motive := fun s : ℕ × Classifier ε α => Sound s.2) l _ h
        fun s hs r _ => hs.deleteRule r.id
    rwa [hl] at hfold
  | changeRulePriority id priority =>
    cases hstep
    exact h.setPriority id priority
  | build =>
    cases hstep
    exact h.reshape (h.distinct.build nofun _)
      (build_rebuilt 0 c.root ⟨c.next, c.rules⟩) (build_repoint 0 _ _ hinv.ids hinv.lt)
  | unbuild =>
    cases hstep
    exact h.reshape (h.distinct.unbuild _) (unbuild_rebuilt hinv.isNode ⟨c.next, c.rules⟩)
      (unbuild_repoint hinv.isNode _ hinv.ids hinv.lt)
  | clean =>
    cases hstep
    refine h.reshape h.distinct.clean (clean_rebuilt c.root c.next) ?_
    rw [entries_clean]
    exact .refl _ _

/-- **Every run of operations and resets.** -/
theorem sound_run {first : Option (ℕ × ℕ)} {calls : List (Call ε α)}
    (hrun : run call (new first) calls = some c) : Sound c := by
  refine run_invariant (fun s a t hs ha => ?_) (sound_reset first _) hrun
  cases a with
  | op op => exact hs.step ha
  | reset first =>
    cases ha
    exact sound_reset first s

/-! ### What follows -/

theorem Inv.deleteRule_entries {F : ℕ → Prop} (h : Inv F c) (id : ℕ) :
    ((c.deleteRule id).1 = true ↔ c.rules id ≠ none) ∧
      (c.deleteRule id).2.root.entries.Perm (c.root.entries.filter fun e => e.2.id ≠ id) ∧
      (c.deleteRule id).2.rules = Function.update c.rules id none := by
  unfold Classifier.deleteRule
  cases hid : c.rules id with
  | none =>
    refine ⟨by simp, .of_eq (filter_eq_self.2 fun e he => ?_).symm, ?_⟩
    · simpa using h.id_ne hid e.2 (mem_map_of_mem he)
    · exact (Function.update_eq_self_iff.2 hid.symm).symm
  | some node =>
    obtain ⟨a, rfl, -, -⟩ := h.entry hid
    refine ⟨by simp, (h.entries_change (changes_removeRule id) hid).trans (.of_eq ?_), rfl⟩
    rw [← filterMap_eq_filter]
    refine filterMap_congr fun e _ => ?_
    by_cases heq : e.2.id = id <;> simp [heq, Option.guard]

theorem Inv.setPriority_entries {F : ℕ → Prop} (h : Inv F c) (id priority : ℕ) :
    ((c.setPriority id priority).1 = true ↔ c.rules id ≠ none) ∧
      (c.setPriority id priority).2.root.entries.Perm
        (c.root.entries.map fun e => (e.1, reprioritize id priority e.2)) ∧
      (c.setPriority id priority).2.rules = c.rules := by
  unfold Classifier.setPriority
  cases hid : c.rules id with
  | none =>
    refine ⟨by simp, .of_eq ?_, rfl⟩
    refine ((map_congr_left fun e he => ?_).trans (map_id _)).symm
    rw [reprioritize, if_neg (h.id_ne hid e.2 (mem_map_of_mem he))]
    rfl
  | some node =>
    obtain ⟨a, rfl, -, hat⟩ := h.entry hid
    obtain ⟨e, he, heq⟩ := h.live id (by rw [hid]; exact some_ne_none _)
    refine ⟨iff_of_true ?_ (some_ne_none _), ?_, rfl⟩
    · refine any_eq_true.2 ⟨e.2, mem_map_of_mem (mem_filter.2 ⟨he, ?_⟩), ?_⟩
      · exact decide_eq_true (hat e he heq)
      · exact decide_eq_true heq
    · refine (h.entries_change (changes_changeRulePriority id priority) hid).trans (.of_eq ?_)
      exact congrFun filterMap_eq_map' _

section Results

variable {first : Option (ℕ × ℕ)} {calls : List (Call ε α)}

/-- **Rules are where they point to.**  After every run of operations, a rule of the map is in one
node of the tree, to which it points, and no other rule is in the tree; lists are sorted and rules
are below the child with their value (`WF`); no path splits twice on a field; and deleting a rule or
changing its priority succeeds just for the rules of the map, and changes this rule only. -/
theorem rules_at_their_nodes (hrun : run call (new first) calls = some c) :
    (∀ id node, c.rules id = some node → ∃ e, node = some e.1 ∧ e.1 ∈ c.root.addrs ∧
      c.root.entries.filter (fun e => e.2.id = id) = [e]) ∧
    (∀ e ∈ c.root.entries, c.rules e.2.id = some (some e.1)) ∧ c.root.addrs.Nodup ∧
    WF c.root ∧ Distinct [] c.root ∧
    ∀ id,
      (((c.deleteRule id).1 = true ↔ c.rules id ≠ none) ∧
        (c.deleteRule id).2.root.entries.Perm (c.root.entries.filter fun e => e.2.id ≠ id) ∧
        (c.deleteRule id).2.rules = Function.update c.rules id none) ∧
      ∀ priority, ((c.setPriority id priority).1 = true ↔ c.rules id ≠ none) ∧
        (c.setPriority id priority).2.root.entries.Perm
          (c.root.entries.map fun e => (e.1, reprioritize id priority e.2)) ∧
        (c.setPriority id priority).2.rules = c.rules := by
  obtain ⟨h, hd, -, -⟩ := sound_run hrun
  refine ⟨fun id node hid => ?_, h.points, h.addrs, h.wf, hd,
    fun id => ⟨h.deleteRule_entries id, h.setPriority_entries id⟩⟩
  obtain ⟨e, he, rfl⟩ := h.live id (by rw [hid]; exact some_ne_none _)
  rw [h.points e he, some.injEq] at hid
  refine ⟨e, hid.symm, mem_addrs_of_mem_entries he, ?_⟩
  -- the entries with the id are all this one, and ids are not repeated
  have hall : ∀ e' ∈ c.root.entries.filter fun e' => e'.2.id = e.2.id, e' = e := fun e' he' => by
    obtain ⟨he', heq⟩ := mem_filter.1 he'
    exact inj_on_of_nodup_map h.ids he' he (of_decide_eq_true heq)
  have hnd : (c.root.entries.filter fun e' => e'.2.id = e.2.id).Nodup :=
    (List.Nodup.of_map _ h.ids).filter _
  have hmem : e ∈ c.root.entries.filter fun e' => e'.2.id = e.2.id :=
    mem_filter.2 ⟨he, decide_eq_true rfl⟩
  exact perm_singleton.1 ((perm_ext_iff_of_nodup hnd (nodup_singleton e)).2
    fun e' => ⟨fun he' => mem_singleton.2 (hall e' he'), fun he' => mem_singleton.1 he' ▸ hmem⟩)

/-- **Ids are given out while one is free.**  After every run of operations and wherever the counter
stands, an id that is given is in range and free, and none is given just when all are in use; the
rules of the tree have distinct ids, in range. -/
theorem ids_given_while_free (hrun : run call (new first) calls = some c) :
    (∀ counter, 1 ≤ counter → counter ≤ maxId →
      (∀ id, getId c.rules false counter = some id → 1 ≤ id ∧ id ≤ maxId ∧ c.rules id = none) ∧
      (getId c.rules false counter = none ↔ ∀ id, 1 ≤ id → id ≤ maxId → c.rules id ≠ none)) ∧
    (1 ≤ c.idCounter ∧ c.idCounter ≤ maxId) ∧ (c.root.rules.map Rule.id).Nodup ∧
    ∀ r ∈ c.root.rules, c.rules r.id ≠ none ∧ 1 ≤ r.id ∧ r.id ≤ maxId := by
  obtain ⟨h, -, hcounter, hids⟩ := sound_run hrun
  refine ⟨fun counter hpos hle => ⟨fun id hid => ?_, fun hnone => (getId_none hnone).2 rfl,
    fun hall => ?_⟩, hcounter, h.nodup_ids,
    fun r hr => ⟨fun hnone => h.id_ne hnone r hr rfl, hids r hr⟩⟩
  · obtain ⟨hone, hmax⟩ := getId_bounds hpos hle hid
    exact ⟨hone, hmax, getId_free hid⟩
  · cases hid : getId c.rules false counter with
    | none => rfl
    | some id =>
      obtain ⟨hone, hmax⟩ := getId_bounds hpos hle hid
      exact absurd (getId_free hid) (hall id hone hmax)

end Results

/-- Two rules, the tree built, one rule deleted. -/
def built : List (Call PacketExpr Unit) :=
  (twoRules .apSrc ++ [Op.deleteRule 1]).map .op

theorem rules_at_their_nodes_built :
    ∃ c, run call (new none) built = some c ∧ c.root.fields = [0] ∧ Distinct [] c.root := by
  obtain ⟨c, hrun, hfields⟩ := map_eq_some_iff.1
    (by decide +kernel : (run call (new none) built).map (fun c => c.root.fields) = some [0])
  exact ⟨c, hrun, hfields, (rules_at_their_nodes hrun).2.2.2.2.1⟩

theorem ids_given_while_free_built :
    ∃ c, run call (new none) built = some c ∧ c.root.rules.length = 1 ∧
      (getId c.rules false maxId = none ↔ ∀ id, 1 ≤ id → id ≤ maxId → c.rules id ≠ none) := by
  obtain ⟨c, hrun, hlen⟩ := map_eq_some_iff.1
    (by decide +kernel : (run call (new none) built).map (fun c => c.root.rules.length) = some 1)
  exact ⟨c, hrun, hlen, ((ids_given_while_free hrun).1 maxId (by decide) (Nat.le_refl _)).2⟩

end NoxClassic.Classifier
