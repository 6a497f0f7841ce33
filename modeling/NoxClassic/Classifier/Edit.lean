/-
# Changing a list, cleaning and unbuilding

What `delete_rule` and `change_rule_priority` do to the node a rule points to, `clean` to
the empty subtrees and `unbuild` to a whole tree; and what becomes of the pointers of the
rules when nodes are put in the place of others.
-/

import NoxClassic.Classifier.Tree

namespace NoxClassic.Classifier

open Function List Cnode Classifier.Expr Lib

variable {ε α : Type}

/-! ### The list of one node -/

variable {f : ℕ} {t : Cnode ε α}

section Modify

variable {addr : ℕ} {g : List (Rule ε α) → List (Rule ε α)}

/-- Only lists at the address are changed. -/
theorem lists_modifyAt (t : Cnode ε α) : lists (modifyAt addr g t) =
    (lists t).map fun p => (p.1, if p.1 = addr then g p.2 else p.2) := by
  induction t with
  | null => rfl
  | leaf a v rs next ih => rw [modifyAt, lists, lists, map_cons, ih]
  | split a v rs f m cs any next ihc iha ihn =>
    rw [modifyAt, lists, lists, map_append, map_cons, map_append, ihc, iha, ihn]

theorem addrs_modifyAt (t : Cnode ε α) : (modifyAt addr g t).addrs = t.addrs := by
  rw [← map_lists, ← map_lists, lists_modifyAt, map_map]
  rfl

theorem fields_modifyAt (t : Cnode ε α) : fields (modifyAt addr g t) = fields t := by
  induction t with
  | null => rfl
  | leaf a v rs next ih => exact ih
  | split a v rs f m cs any next ihc iha ihn => simp only [modifyAt, fields, ihc, iha, ihn]

theorem values_modifyAt (t : Cnode ε α) : (modifyAt addr g t).values = t.values := by
  induction t with
  | null => rfl
  | leaf a v rs next ih => rw [modifyAt, values_leaf, values_leaf, ih]
  | split a v rs f m cs any next _ _ ih => rw [modifyAt, values_split, values_split, ih]

/-- Of some entries, those of the node at the address are changed, and no other. -/
def Splits (addr : ℕ) (B : List (ℕ × Rule ε α))
    (B' : (List (Rule ε α) → List (Rule ε α)) → List (ℕ × Rule ε α)) : Prop :=
  ∃ rs E, B.Perm (rs.map (addr, ·) ++ E) ∧ (∀ e ∈ E, e.1 ≠ addr) ∧
    ∀ g, (B' g).Perm ((g rs).map (addr, ·) ++ E)

/-- **One list changes**, that of the node at the address. -/
theorem splits_modifyAt (hnd : t.addrs.Nodup) (h : addr ∈ t.addrs) :
    Splits addr t.entries fun g => (modifyAt addr g t).entries := by
  rw [← map_lists] at hnd h
  obtain ⟨p, hp, rfl⟩ := mem_map.1 h
  obtain ⟨L, R, heq⟩ := append_of_mem hp
  have hperm : (lists t).Perm (p :: (L ++ R)) := heq ▸ perm_middle
  have hne : ∀ q ∈ L ++ R, q.1 ≠ p.1 := fun q hq heq =>
    (nodup_cons.1 ((hperm.map _).nodup_iff.1 hnd)).1 (heq ▸ mem_map_of_mem hq)
  refine ⟨p.2, (L ++ R).flatMap fun q => q.2.map (q.1, ·), ?_, fun e he => ?_, fun g => ?_⟩
  · rw [← flatMap_lists]
    exact hperm.flatMap_right _
  · obtain ⟨q, hq, he⟩ := mem_flatMap.1 he
    obtain ⟨r, -, rfl⟩ := mem_map.1 he
    exact hne q hq
  · dsimp only
    rw [← flatMap_lists, lists_modifyAt, flatMap_map]
    refine (hperm.flatMap_right _).trans (.of_eq ?_)
    rw [flatMap_cons, if_pos rfl]
    exact congrArg _ (flatMap_congr fun q hq => by rw [if_neg (hne q hq)])

/-- The change keeps lists sorted, and brings no expression that was not there. -/
structure Keeps (g : List (Rule ε α) → List (Rule ε α)) : Prop where
  sorted : ∀ rs, Sorted rs → Sorted (g rs)
  exprs : ∀ rs, ∀ r ∈ g rs, ∃ r' ∈ rs, r'.expr = r.expr

theorem Keeps.ite (hg : Keeps g) (p : Prop) [Decidable p] (rs : List (Rule ε α)) :
    (Sorted rs → Sorted (if p then g rs else rs)) ∧
      ∀ r ∈ if p then g rs else rs, ∃ r' ∈ rs, r'.expr = r.expr := by
  split
  · exact ⟨hg.sorted rs, hg.exprs rs⟩
  · exact ⟨id, fun r hr => ⟨r, hr, rfl⟩⟩

/-- No expression comes to a tree. -/
theorem exprs_modifyAt (hg : Keeps g) (t : Cnode ε α) :
    ∀ r ∈ (modifyAt addr g t).rules, ∃ r' ∈ t.rules, r'.expr = r.expr := by
  intro r hr
  rw [mem_rules_iff, lists_modifyAt] at hr
  obtain ⟨q, hq, hr⟩ := hr
  obtain ⟨p, hp, rfl⟩ := mem_map.1 hq
  obtain ⟨r', hr', he⟩ := (hg.ite (p.1 = addr) p.2).2 r hr
  exact ⟨r', mem_rules_iff.2 ⟨p, hp, hr'⟩, he⟩

variable [Expr ε]

theorem Under.modifyAt (hg : Keeps g) (h : Under f t) : Under f (modifyAt addr g t) := by
  induction t with
  | null => trivial
  | leaf a v rs next ih =>
    refine ⟨fun r hr => ?_, values_modifyAt next ▸ h.2.1, ih h.2.2⟩
    obtain ⟨r', hr', he⟩ := (hg.ite (a = addr) rs).2 r hr
    exact he ▸ h.1 r' hr'
  | split a v rs f' m cs any next _ _ ih =>
    refine ⟨fun r hr => ?_, values_modifyAt next ▸ h.2.1, ih h.2.2⟩
    have hr' : r ∈ (Classifier.modifyAt addr g (split a v rs f' m cs any null)).rules := by
      rw [Classifier.modifyAt, rules_split]
      exact mem_append_left _ hr
    obtain ⟨r', hr', he⟩ := exprs_modifyAt hg _ r hr'
    rw [rules_split, rules_null, append_nil] at hr'
    exact he ▸ h.1 r' hr'

theorem WF.modifyAt (hg : Keeps g) (h : WF t) : WF (modifyAt addr g t) := by
  induction t with
  | null => trivial
  | leaf a v rs next ih => exact ⟨(hg.ite (a = addr) rs).1 h.1, ih h.2⟩
  | split a v rs f m cs any next ihc iha ihn =>
    refine ⟨(hg.ite (a = addr) rs).1 h.1, ⟨h.2.1.1.modifyAt hg, fun r hr => ?_⟩,
      ⟨ihc h.2.2.1.1, iha h.2.2.1.2⟩, ihn h.2.2.2⟩
    obtain ⟨r', hr', he⟩ := exprs_modifyAt hg any r hr
    exact he ▸ h.2.1.2 r' hr'

omit [Expr ε] in
theorem keeps_removeRule (id : ℕ) : Keeps (removeRule id : List (Rule ε α) → List (Rule ε α)) :=
  ⟨fun _ h => h.sublist eraseP_sublist, fun _ r hr => ⟨r, eraseP_sublist.subset hr, rfl⟩⟩

omit [Expr ε] in
theorem keeps_changeRulePriority (id priority : ℕ) :
    Keeps (changeRulePriority id priority : List (Rule ε α) → List (Rule ε α)) where
  sorted rs h := by
    unfold changeRulePriority
    split
    · exact addRuleToList_sorted _ (h.sublist eraseP_sublist)
    · exact h
  exprs rs r hr := by
    unfold changeRulePriority at hr
    split at hr
    · next r0 hfind =>
      rcases mem_cons.1 ((addRuleToList_perm _ _).subset hr) with rfl | hr
      · exact ⟨r0, mem_of_find?_eq_some hfind, rfl⟩
      · exact ⟨r, eraseP_sublist.subset hr, rfl⟩
    · exact ⟨r, hr, rfl⟩

end Modify

/-! ### Empty subtrees -/

theorem eq_null_of_isNull (h : t.isNull = true) : t = null := by
  cases t with
  | null => rfl
  | leaf | split => nomatch h

/-- **Induction along pruning**: a node is left out, and has no rules, or it stays. -/
theorem prune_induction {P : Cnode ε α → Cnode ε α → Prop} (hnull : P null null)
    (hgone : ∀ a v next, P next (prune next) → P (leaf a v [] next) (prune next))
    (hleaf : ∀ a v rs next, P next (prune next) → P (leaf a v rs next) (leaf a v rs (prune next)))
    (hempty : ∀ a v f m cs any next, P cs null → P any null → P next (prune next) →
      P (split a v [] f m cs any next) (prune next))
    (hsplit : ∀ a v rs f m cs any next, P cs (prune cs) → P any (prune any) → P next (prune next) →
      P (split a v rs f m cs any next) (split a v rs f m (prune cs) (prune any) (prune next)))
    (t : Cnode ε α) : P t (prune t) := by
  induction t with
  | null => exact hnull
  | leaf a v rs next ih =>
    rw [prune]
    split
    · next h => exact isEmpty_iff.1 h ▸ hgone a v next ih
    · exact hleaf a v rs next ih
  | split a v rs f m cs any next ihc iha ihn =>
    rw [prune]
    split
    · next h =>
      rw [Bool.and_eq_true, Bool.and_eq_true] at h
      rw [eq_null_of_isNull h.1.2] at ihc
      rw [eq_null_of_isNull h.2] at iha
      exact isEmpty_iff.1 h.1.1 ▸ hempty a v f m cs any next ihc iha ihn
    · exact hsplit a v rs f m cs any next ihc iha ihn

/-- **Pruning keeps every rule where it is.** -/
theorem entries_prune (t : Cnode ε α) : (prune t).entries = t.entries := by
  refine prune_induction (P := fun t t' => t'.entries = t.entries) rfl ?_ ?_ ?_ ?_ t
  · exact fun a v next ih => ih
  · intro a v rs next ih
    rw [entries_leaf, entries_leaf, ih]
  · intro a v f m cs any next ihc iha ihn
    rw [ihn, entries_split, ← ihc, ← iha]
    rfl
  · intro a v rs f m cs any next ihc iha ihn
    rw [entries_split, entries_split, ihc, iha, ihn]

theorem rules_prune (t : Cnode ε α) : (prune t).rules = t.rules :=
  congrArg (List.map Prod.snd) (entries_prune t)

theorem addrs_prune (t : Cnode ε α) : (prune t).addrs.Sublist t.addrs := by
  refine prune_induction (P := fun t t' => t'.addrs.Sublist t.addrs) (.refl _) ?_ ?_ ?_ ?_ t
  · exact fun a _ _ ih => ih.cons a
  · exact fun a _ _ _ ih => ih.cons_cons a
  · exact fun a _ _ _ _ _ _ _ _ ihn => (ihn.trans (sublist_append_right _ _)).cons a
  · exact fun a _ _ _ _ _ _ _ ihc iha ihn => ((ihc.append iha).append ihn).cons_cons a

theorem fields_prune (t : Cnode ε α) : fields (prune t) ⊆ fields t := by
  refine prune_induction (P := fun t t' => fields t' ⊆ fields t) (Subset.refl _) ?_ ?_ ?_ ?_ t
  · exact fun _ _ _ ih => ih
  · exact fun _ _ _ _ ih => ih
  · exact fun _ _ _ _ _ _ _ _ _ ihn => subset_append_of_subset_right _ ihn
  · intro a v rs f m cs any next ihc iha ihn
    exact append_subset.2 ⟨subset_append_of_subset_left _
      (cons_subset_cons _ (append_subset.2
        ⟨subset_append_of_subset_left _ ihc, subset_append_of_subset_right _ iha⟩)),
      subset_append_of_subset_right _ ihn⟩

theorem values_prune (t : Cnode ε α) : (prune t).values.Sublist t.values := by
  refine prune_induction (P := fun t t' => t'.values.Sublist t.values) (.refl _) ?_ ?_ ?_ ?_ t
  · exact fun _ v _ ih => ih.cons v
  · exact fun _ v _ _ ih => ih.cons_cons v
  · exact fun _ v _ _ _ _ _ _ _ ihn => ihn.cons v
  · exact fun _ v _ _ _ _ _ _ _ _ ihn => ihn.cons_cons v

section Order

variable [Expr ε]

theorem Under.prune (h : Under f t) : Under f (prune t) := by
  refine prune_induction (P := fun t t' => Under f t → Under f t') id ?_ ?_ ?_ ?_ t h
  · exact fun _ _ _ ih h => ih h.2.2
  · exact fun _ _ _ next ih h => ⟨h.1, fun hv => h.2.1 ((values_prune next).subset hv), ih h.2.2⟩
  · exact fun _ _ _ _ _ _ _ _ _ ihn h => ihn h.2.2
  · intro a v rs f' m cs any next _ _ ihn h
    refine ⟨?_, fun hv => h.2.1 ((values_prune next).subset hv), ihn h.2.2⟩
    rw [rules_prune, rules_prune]
    exact h.1

theorem WF.prune (h : WF t) : WF (prune t) := by
  refine prune_induction (P := fun t t' => WF t → WF t') id ?_ ?_ ?_ ?_ t h
  · exact fun _ _ _ ih h => ih h.2
  · exact fun _ _ _ _ ih h => ⟨h.1, ih h.2⟩
  · exact fun _ _ _ _ _ _ _ _ _ ihn h => ihn h.2.2.2
  · intro a v rs f m cs any next ihc iha ihn h
    refine ⟨h.1, ⟨h.2.1.1.prune, ?_⟩, ⟨ihc h.2.2.1.1, iha h.2.2.1.2⟩, ihn h.2.2.2⟩
    rw [rules_prune]
    exact h.2.1.2

end Order

/-! ### Unbuilding -/

theorem inBuckets_perm {β : Type} (m : ℕ) (l : List (Value × β)) :
    (inBuckets m l).Perm (l.map Prod.snd) := by
  unfold inBuckets
  rw [← map_flatMap]
  exact (flatMap_filter_perm (fun p : Value × β => getBucket p.1 m) fun p _ =>
    Nat.lt_succ_of_le Nat.and_le_right).map Prod.snd

/-- The lists below a chain hold its rules. -/
theorem nodeLists_perm (t : Cnode ε α) : ((nodeLists t).flatMap Prod.snd).flatten.Perm t.rules := by
  induction t with
  | null => exact .refl _
  | leaf a v rs next ih =>
    rw [nodeLists, flatMap_cons, rules_leaf]
    exact ih.append_left rs
  | split a v rs f m cs any next ihc iha ihn =>
    have hc : (inBuckets m (nodeLists cs)).flatten.flatten.Perm cs.rules := by
      refine (inBuckets_perm m _).flatten.flatten.trans ?_
      rwa [← flatMap_def]
    rw [nodeLists, flatMap_cons, rules_split, flatten_append, flatten_cons, flatten_append]
    exact ((hc.append iha).append_left rs).append ihn

theorem nodeLists_sorted [Expr ε] (h : WF t) :
    ∀ rs ∈ (nodeLists t).flatMap Prod.snd, Sorted rs := by
  induction t with
  | null => exact nofun
  | leaf a v rs next ih =>
    exact forall_mem_append.2 ⟨forall_mem_singleton.2 h.1, ih h.2⟩
  | split a v rs f m cs any next ihc iha ihn =>
    refine forall_mem_append.2 ⟨forall_mem_cons.2 ⟨h.1, ?_⟩, ihn h.2.2.2⟩
    refine forall_mem_append.2 ⟨fun rs' hrs' => ?_, iha h.2.2.1.2⟩
    refine ihc h.2.2.1.1 rs' ?_
    exact (inBuckets_perm m _).flatten.subset hrs'

/-- Lists merged one after the other. -/
theorem foldl_merge (ls : List (List (Rule ε α))) (l : List (Rule ε α)) :
    (ls.foldl (fun l m => l.merge m listCompare) l).Perm (l ++ ls.flatten) ∧
      (Sorted l → (∀ m ∈ ls, Sorted m) →
        Sorted (ls.foldl (fun l m => l.merge m listCompare) l)) := by
  induction ls generalizing l with
  | nil => exact ⟨.of_eq (append_nil l).symm, fun h _ => h⟩
  | cons m ls ih =>
    obtain ⟨hperm, hsort⟩ := ih (l.merge m listCompare)
    refine ⟨?_, fun hl hls => ?_⟩
    · rw [foldl_cons, flatten_cons, ← append_assoc]
      exact hperm.trans ((merge_perm_append _).append_right _)
    have hm := forall_mem_cons.1 hls
    refine hsort ?_ hm.2
    have hmerge : (l.merge m listCompare).Pairwise fun a b => listCompare a b = true :=
      pairwise_merge (fun a b c (h : listCompare a b) (h' : listCompare b c) => decide_eq_true
        (Nat.le_trans (of_decide_eq_true h) (of_decide_eq_true h')))
        (fun a b => by simpa [listCompare] using Nat.le_total a.priority b.priority) l m
        (hl.imp decide_eq_true) (hm.1.imp decide_eq_true)
    exact hmerge.imp of_decide_eq_true

/-! ### Pointers -/

/-- Every rule of the tree points to its node. -/
def Pointing (t : Cnode ε α) (rules : IdMap) : Prop :=
  ∀ e ∈ t.entries, rules e.2.id = some (some e.1)

theorem setNodePointers_of_not_mem {E : List (ℕ × Rule ε α)} {rules : IdMap} {id : ℕ}
    (h : ∀ e ∈ E, e.2.id ≠ id) :
    E.foldl (fun (rules : IdMap) e => update rules e.2.id (some (some e.1))) rules id =
      rules id := by
  induction E generalizing rules with
  | nil => rfl
  | cons e E ih =>
    rw [foldl_cons, ih fun e' he' => h e' (mem_cons_of_mem _ he'),
      update_of_ne (h e mem_cons_self).symm]

/-- **`set_node_pointers`**: all rules of the tree point to their nodes, and no other changes. -/
theorem pointing_setNodePointers (hnd : (t.entries.map fun e => e.2.id).Nodup)
    (rules : IdMap) : Pointing t (setNodePointers t rules) ∧
      ∀ id, (∀ e ∈ t.entries, e.2.id ≠ id) → setNodePointers t rules id = rules id := by
  refine ⟨?_, fun id h => setNodePointers_of_not_mem h⟩
  unfold Pointing setNodePointers
  generalize t.entries = E at hnd
  induction E generalizing rules with
  | nil => exact nofun
  | cons e E ih =>
    rw [map_cons, nodup_cons] at hnd
    refine forall_mem_cons.2 ⟨?_, ih _ hnd.2⟩
    rw [foldl_cons, setNodePointers_of_not_mem, update_self]
    exact fun e' he' heq => hnd.1 (heq ▸ mem_map_of_mem he')

/-- The destructor of nodes changes no pointer to another node. -/
theorem destroy_eq {rules : IdMap} {id : ℕ}
    (h : ∀ e ∈ t.entries, e.2.id = id → rules id ≠ some (some e.1)) :
    destroy t rules id = rules id := by
  unfold destroy
  generalize t.entries = E at h
  induction E generalizing rules with
  | nil => rfl
  | cons e E ih =>
    have he := forall_mem_cons.1 h
    rw [foldl_cons]
    -- the pointer of this rule is not to the node that is destroyed
    have hkeep : (if rules e.2.id = some (some e.1) then
        update rules e.2.id (some none) else rules) id = rules id := by
      split
      · next heq =>
        rw [update_of_ne]
        rintro rfl
        exact he.1 rfl heq
      · rfl
    rw [ih (by rw [hkeep]; exact he.2), hkeep]

end NoxClassic.Classifier
