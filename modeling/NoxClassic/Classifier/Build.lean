/-
# Building the tree

`build` replaces leaves by nodes that are split, and their children in turn.  Whatever the
heuristic chooses, the rules stay the same, the tree stays in order, the nodes that come
are new, and in the end every rule points to its node (`build_spec`).
-/

import Mathlib.Data.List.Perm.Subperm
import NoxClassic.Classifier.Edit

namespace NoxClassic.Classifier

open List Option Cnode Classifier.Expr Lib

variable {ε α : Type}

/-! ### A node and the chain after it -/

/-- One node, with nothing chained after it. -/
def IsNode (t : Cnode ε α) : Prop := t.isNull = false ∧ t.withNext null = t

theorem isNode_leaf (a : ℕ) (v : Value) (rs : List (Rule ε α)) : IsNode (leaf a v rs null) :=
  ⟨rfl, rfl⟩

theorem isNode_split (a : ℕ) (v : Value) (rs : List (Rule ε α)) (f m : ℕ) (cs any : Cnode ε α) :
    IsNode (split a v rs f m cs any null) :=
  ⟨rfl, rfl⟩

/-- A node is a leaf or split. -/
theorem IsNode.cases {x : Cnode ε α} (hx : IsNode x) : (∃ a v rs, x = leaf a v rs null) ∨
    ∃ a v rs f m cs any, x = split a v rs f m cs any null := by
  obtain ⟨hnull, hnext⟩ := hx
  rw [← hnext]
  cases x with
  | null => nomatch hnull
  | leaf a v rs => exact .inl ⟨a, v, rs, rfl⟩
  | split a v rs f m cs any => exact .inr ⟨a, v, rs, f, m, cs, any, rfl⟩

section WithNext

variable {x : Cnode ε α} (hx : IsNode x) (y : Cnode ε α)

include hx

theorem entries_withNext : (x.withNext y).entries = x.entries ++ y.entries := by
  rcases hx.cases with ⟨a, v, rs, rfl⟩ | ⟨a, v, rs, f, m, cs, any, rfl⟩ <;> simp [withNext]

theorem rules_withNext : (x.withNext y).rules = x.rules ++ y.rules := by
  rw [Cnode.rules, entries_withNext hx, map_append]
  rfl

theorem addrs_withNext : (x.withNext y).addrs = x.addrs ++ y.addrs := by
  rcases hx.cases with ⟨a, v, rs, rfl⟩ | ⟨a, v, rs, f, m, cs, any, rfl⟩ <;> simp [withNext]

theorem values_withNext : (x.withNext y).values = x.value :: y.values := by
  rcases hx.cases with ⟨a, v, rs, rfl⟩ | ⟨a, v, rs, f, m, cs, any, rfl⟩ <;> rfl

theorem fields_withNext : fields (x.withNext y) = fields x ++ fields y := by
  rcases hx.cases with ⟨a, v, rs, rfl⟩ | ⟨a, v, rs, f, m, cs, any, rfl⟩
  · rfl
  · simp [withNext, fields]

theorem wf_withNext [Expr ε] : WF (x.withNext y) ↔ WF x ∧ WF y := by
  rcases hx.cases with ⟨a, v, rs, rfl⟩ | ⟨a, v, rs, f, m, cs, any, rfl⟩
  · simp [withNext, WF]
  · simp [withNext, WF, and_assoc]

theorem under_withNext [Expr ε] (f : ℕ) :
    Under f (x.withNext y) ↔
      (∀ r ∈ x.rules, getField r.expr f = some x.value) ∧ x.value ∉ y.values ∧ Under f y := by
  rcases hx.cases with ⟨a, v, rs, rfl⟩ | ⟨a, v, rs, g, m, cs, any, rfl⟩
  all_goals simp [withNext, Under, Cnode.value]

end WithNext

/-! ### Rebuilt chains -/

variable {k n a f m : ℕ} {rs : List (Rule ε α)} {s : Cnode ε α × ℕ} {v : Value} {c : ℕ × ℕ}
    {t : Cnode ε α}

/-- Addresses handed out one after the other. -/
theorem range'_cut {l : ℕ} (hnk : n ≤ k) (hkl : k ≤ l) :
    range' n (l - n) = range' n (k - n) ++ range' k (l - k) := by
  have hsum : l - n = (k - n) + (l - k) := by omega
  have hk : n + (k - n) = k := by omega
  rw [hsum, ← range'_append_1, hk]

variable [Expr ε]

/-- The same rules in order in a tree with some new nodes. -/
structure Rebuilt (t : Cnode ε α) (n : ℕ) (s : Cnode ε α × ℕ) : Prop where
  rules : s.1.rules.Perm t.rules
  values : s.1.values = t.values
  le : n ≤ s.2
  addrs : s.1.addrs.Subperm (List.range' n (s.2 - n) ++ t.addrs)
  wf : WF t → WF s.1
  under : ∀ f, Under f t → Under f s.1
  fields : ∀ f ∈ fields s.1, f ∈ fields t ∨ f < numFields ε

namespace Rebuilt

theorem refl (t : Cnode ε α) (n : ℕ) : Rebuilt t n (t, n) :=
  ⟨.refl _, rfl, Nat.le_refl n, (sublist_append_right _ _).subperm, id, fun _ => id, fun _ => .inl⟩

/-- New nodes of two parts. -/
theorem addrs_append {A A' B B' : List ℕ} {l : ℕ} (hnk : n ≤ k) (hkl : k ≤ l)
    (hA : A'.Subperm (range' n (k - n) ++ A)) (hB : B'.Subperm (range' k (l - k) ++ B)) :
    (A' ++ B').Subperm (range' n (l - n) ++ (A ++ B)) := by
  refine (List.Subperm.append hA hB).trans ?_
  rw [range'_cut hnk hkl, append_assoc, append_assoc]
  exact ((perm_append_comm_assoc _ _ _).append_left _).subperm

/-- A node and the chain after it. -/
theorem chain {x y : Cnode ε α} {t : Cnode ε α × ℕ} (hx : IsNode x) (hs : IsNode s.1)
    (hxs : Rebuilt x n s) (hyt : Rebuilt y s.2 t) :
    Rebuilt (x.withNext y) n (s.1.withNext t.1, t.2) := by
  have hvalue : s.1.value = x.value := by
    have h := hxs.values
    rw [← hs.2, ← hx.2, values_withNext hs, values_withNext hx] at h
    exact (cons.inj h).1
  refine ⟨?_, ?_, Nat.le_trans hxs.le hyt.le, ?_, fun h => ?_, fun f h => ?_, fun f hf => ?_⟩
  · rw [rules_withNext hs, rules_withNext hx]
    exact hxs.rules.append hyt.rules
  · rw [values_withNext hs, values_withNext hx, hvalue, hyt.values]
  · rw [addrs_withNext hs, addrs_withNext hx]
    exact addrs_append hxs.le hyt.le hxs.addrs hyt.addrs
  · rw [wf_withNext hx] at h
    exact (wf_withNext hs _).2 ⟨hxs.wf h.1, hyt.wf h.2⟩
  · rw [under_withNext hx] at h
    refine (under_withNext hs _ f).2 ⟨fun r hr => ?_, ?_, hyt.under f h.2.2⟩
    · rw [hvalue]
      exact h.1 r (hxs.rules.subset hr)
    · rw [hvalue, hyt.values]
      exact h.2.1
  · rw [fields_withNext hs] at hf
    rw [fields_withNext hx, mem_append]
    rcases mem_append.1 hf with hf | hf
    · exact (hxs.fields f hf).imp_left .inl
    · exact (hyt.fields f hf).imp_left .inr

/-- A node whose children are rebuilt. -/
theorem children {cs any : Cnode ε α}
    {c d : Cnode ε α × ℕ} (hc : Rebuilt cs n c) (hd : Rebuilt any c.2 d) :
    Rebuilt (split a v rs f m cs any null) n (split a v rs f m c.1 d.1 null, d.2) where
  rules := by
    rw [rules_split, rules_split]
    exact (((hc.rules.append hd.rules).append_left rs).append_right _)
  values := rfl
  le := Nat.le_trans hc.le hd.le
  addrs := by
    rw [addrs_split, addrs_split, addrs_null, append_nil, append_nil]
    exact ((subperm_cons a).2 (addrs_append hc.le hd.le hc.addrs hd.addrs)).trans
      perm_middle.symm.subperm
  wf h := ⟨h.1, ⟨hc.under f h.2.1.1, fun r hr => h.2.1.2 r (hd.rules.subset hr)⟩,
    ⟨hc.wf h.2.2.1.1, hd.wf h.2.2.1.2⟩, trivial⟩
  under g h := by
    refine ⟨fun r hr => h.1 r ?_, h.2⟩
    exact ((hc.rules.append hd.rules).append_left rs).subset hr
  fields g hg := by
    simp only [Cnode.fields, mem_cons, mem_append, append_nil] at hg ⊢
    rcases hg with hg | hg | hg
    · exact .inl (.inl hg)
    · exact (hc.fields g hg).imp_left fun h => .inr (.inl h)
    · exact (hd.fields g hg).imp_left fun h => .inr (.inr h)

end Rebuilt

/-! ### Splitting a leaf -/

/-- A chain of leaves. -/
def Leaves : Cnode ε α → Prop
  | null => True
  | leaf _ _ _ next => Leaves next
  | split .. => False

theorem Leaves.addRule (h : Leaves t) (r : Rule ε α) (path : Path)
    (sel : Option Value) (n : ℕ) : Leaves (addRule r t path sel n).tree := by
  induction t with
  | null => trivial
  | leaf a v rs next ih =>
    unfold Classifier.addRule
    split
    · exact h
    · exact ih h
  | split a v rs f m cs any next => exact h.elim

/-- The node that the rules are added to stays split, at its address, and leaves below it
stay leaves. -/
theorem addRule_split (r : Rule ε α) (a : ℕ) (v : Value) (rs : List (Rule ε α)) (f m : ℕ)
    (cs any : Cnode ε α) (path : Path) (n : ℕ) :
    ∃ rs' cs' any', (addRule r (split a v rs f m cs any null) path none n).tree =
      split a v rs' f m cs' any' null ∧ (Leaves cs ∧ Leaves any → Leaves cs' ∧ Leaves any') := by
  have hsel : (none : Option Value).getD v = v := rfl
  unfold addRule
  rw [if_pos hsel]
  split
  · exact ⟨_, _, _, rfl, id⟩
  split
  · split
    · exact ⟨_, _, _, rfl, fun h => ⟨h.1.addRule .., h.2⟩⟩
    · exact ⟨_, _, _, rfl, id⟩
  · split
    · exact ⟨_, _, _, rfl, fun h => ⟨h.1, trivial⟩⟩
    · exact ⟨_, _, _, rfl, fun h => ⟨h.1, h.2.addRule ..⟩⟩

/-- The rules of a list are added to a node that is split. -/
theorem addRules_spec (path : Path) (rs : List (Rule ε α)) (rs0 : List (Rule ε α))
    (cs0 any0 : Cnode ε α) (n : ℕ) (hwf : WF (split a v rs0 f m cs0 any0 null)) :
    ∃ rs' cs' any' n', addRules path rs (split a v rs0 f m cs0 any0 null) n =
        (split a v rs' f m cs' any' null, n') ∧
      (split a v rs' f m cs' any' null).rules.Perm
        (rs ++ (split a v rs0 f m cs0 any0 null).rules) ∧ n ≤ n' ∧
      (split a v rs' f m cs' any' null).addrs.Perm
        (range' n (n' - n) ++ (split a v rs0 f m cs0 any0 null).addrs) ∧
      WF (split a v rs' f m cs' any' null) ∧
      fields (split a v rs' f m cs' any' null) = fields (split a v rs0 f m cs0 any0 null) ∧
      (Leaves cs0 ∧ Leaves any0 → Leaves cs' ∧ Leaves any') := by
  induction rs generalizing rs0 cs0 any0 n with
  | nil =>
    refine ⟨rs0, cs0, any0, n, rfl, .refl _, Nat.le_refl n, ?_, hwf, rfl, id⟩
    rw [Nat.sub_self]
    exact .refl _
  | cons r rs ih =>
    have hadd := addRule_spec r (t := split a v rs0 f m cs0 any0 null) path none n rfl
    obtain ⟨rs1, cs1, any1, htree, hleaves⟩ := addRule_split r a v rs0 f m cs0 any0 path n
    have hwf1 := hadd.wf hwf
    have hrules := hadd.rules
    have haddrs := hadd.addrs
    have hfields := fields_addRule r (split a v rs0 f m cs0 any0 null) path none n
    rw [htree] at hwf1 hrules haddrs hfields
    obtain ⟨rs', cs', any', n', he, hperm, hle, haddr, hwf', hf', hl'⟩ := ih rs1 cs1 any1
      (addRule r (split a v rs0 f m cs0 any0 null) path none n).next hwf1
    refine ⟨rs', cs', any', n', ?_, ?_, Nat.le_trans hadd.le hle, ?_, hwf', hf'.trans hfields,
      fun h => hl' (hleaves h)⟩
    · rw [← he, ← htree]
      rfl
    · refine hperm.trans ?_
      exact (hrules.append_left rs).trans perm_middle
    · refine haddr.trans ((haddrs.append_left _).trans ?_)
      rw [range'_cut hadd.le hle, ← append_assoc]
      exact perm_append_comm.append_right _

theorem wf_split_nil (a : ℕ) (v : Value) (f m : ℕ) :
    WF (split a v [] f m null null null : Cnode ε α) := by
  simp [WF, Under, Sorted]

/-- A function that rebuilds chains, as the recursive calls of `build` do. -/
def Rebuilds (build : Path → Cnode ε α → ℕ → Cnode ε α × ℕ) : Prop :=
  ∀ path t n, Rebuilt t n (build path t n)

/-- A leaf that is split: a node at the address with the rules of the list. -/
structure SplitOf (a : ℕ) (v : Value) (rs : List (Rule ε α)) (f n : ℕ) (s : Cnode ε α × ℕ) :
    Prop where
  isNode : IsNode s.1
  value : s.1.value = v
  rules : s.1.rules.Perm rs
  le : n ≤ s.2
  addrs : s.1.addrs.Subperm (List.range' n (s.2 - n) ++ [a])
  wf : WF s.1
  fields : ∀ g ∈ fields s.1, g = f ∨ g < numFields ε

theorem splitLeaf_spec {build : Path → Cnode ε α → ℕ → Cnode ε α × ℕ} (hbuild : Rebuilds build)
    (path : Path) (a : ℕ) (v : Value) (rs : List (Rule ε α)) (f m n : ℕ) :
    SplitOf a v rs f n (splitLeaf build path a v rs f m n) := by
  obtain ⟨rs', cs, any, k, he, hrules, hle, haddrs, hwf, hfields, -⟩ := addRules_spec path rs
    [] null null n (wf_split_nil a v f m)
  unfold splitLeaf
  rw [he]
  have hre : Rebuilt (split a v rs' f m cs any null) k
      (buildChildren build path (split a v rs' f m cs any null, k)) :=
    Rebuilt.children (hbuild _ cs k) (hbuild _ any _)
  refine ⟨isNode_split .., rfl, ?_, Nat.le_trans hle hre.le, ?_, hre.wf hwf, fun g hg => ?_⟩
  · refine hre.rules.trans (hrules.trans ?_)
    simp
  · refine hre.addrs.trans (((haddrs.append_left _).subperm).trans ?_)
    rw [range'_cut hle hre.le, ← append_assoc, addrs_split]
    exact (perm_append_comm.append_right _).subperm
  · refine (hre.fields g hg).imp_left fun hg => ?_
    rw [hfields] at hg
    exact mem_singleton.1 hg

/-- The split node in the place of its leaf. -/
theorem SplitOf.rebuilt {b : ℕ} (h : SplitOf a v rs f k s) (hf : f < numFields ε) (hnk : n ≤ k)
    (haddrs : s.1.addrs.Subperm (range' n (s.2 - n) ++ [b])) :
    Rebuilt (leaf b v rs null) n s where
  rules := by
    rw [rules_leaf, rules_null, append_nil]
    exact h.rules
  values := by
    rw [← h.isNode.2, values_withNext h.isNode, h.value]
    rfl
  le := Nat.le_trans hnk h.le
  addrs := haddrs
  wf _ := h.wf
  under f hu := by
    have hs := under_withNext h.isNode null f
    rw [h.isNode.2] at hs
    refine hs.2 ⟨fun r hr => ?_, not_mem_nil, trivial⟩
    rw [h.value]
    exact hu.1 r (h.rules.subset hr)
  fields g hg := .inr ((h.fields g hg).elim (fun heq => heq ▸ hf) id)

/-! ### The choice of a field -/

variable (ε) in
/-- The fields that are not in a path. -/
def free (path : Path) : List ℕ :=
  (List.range (numFields ε)).filter fun i => path &&& masks i = 0

variable {path : Path}

/-- The field of a split is not in the path. -/
theorem bestSplit_mem {b : ℕ × ℕ × ℕ} (h : bestSplit path rs = some b) : b.1 ∈ free ε path := by
  -- whatever the loop has kept so far is a field that is not in the path
  have hkept : ∀ b, bestSplit path rs = some b → b.1 ∈ free ε path := by
    refine foldlRecOn (motive := fun best : Option (ℕ × ℕ × ℕ) =>
      ∀ b, best = some b → b.1 ∈ free ε path) _ _ (fun b hb => by cases hb) ?_
    intro best hbest i hi b hb
    split at hb
    · next hfree =>
      have hi : i ∈ free ε path := mem_filter.2 ⟨hi, by simpa using hfree⟩
      dsimp only at hb
      split at hb
      · exact some.inj hb ▸ hi
      · next b0 =>
        split at hb
        · exact some.inj hb ▸ hi
        · exact hbest b hb
    · exact hbest b hb
  exact hkept b h

theorem splitChoice_mem (h : splitChoice path rs = some c) : c.1 ∈ free ε path := by
  unfold splitChoice at h
  split at h
  · cases h
  split at h
  · cases h
  · next hb =>
    split at h
    · cases h
    · exact some.inj h ▸ bestSplit_mem hb

theorem splitChoice_lt (h : splitChoice path rs = some c) : c.1 < numFields ε :=
  mem_range.1 (mem_filter.1 (splitChoice_mem h)).1

/-! ### Building a copy -/

/-- One level keeps the rules if the levels below do. -/
theorem rebuilds_buildCopyWith {build : Path → Cnode ε α → ℕ → Cnode ε α × ℕ}
    (hbuild : Rebuilds build) : Rebuilds (buildCopyWith build) := by
  intro path t n
  induction t generalizing n with
  | null => exact .refl _ n
  | leaf a v rs next ih =>
    unfold buildCopyWith
    cases hc : splitChoice path rs with
    | none => exact Rebuilt.chain (isNode_leaf a v rs) (isNode_leaf a v rs) (.refl _ n) (ih n)
    | some c =>
      have hs := splitLeaf_spec hbuild path a v rs c.1 c.2 n
      exact Rebuilt.chain (isNode_leaf a v rs) hs.isNode
        (hs.rebuilt (splitChoice_lt hc) (Nat.le_refl n) hs.addrs) (ih _)
  | split a v rs f m cs any next _ _ ih =>
    exact Rebuilt.chain (isNode_split ..) (isNode_split ..)
      (Rebuilt.children (hbuild _ cs n) (hbuild _ any _)) (ih _)

/-- Building a copy keeps the rules. -/
theorem rebuilds_buildCopy (levels : ℕ) :
    Rebuilds (buildCopy levels : Path → Cnode ε α → ℕ → Cnode ε α × ℕ) := by
  induction levels with
  | zero => exact fun _ t n => .refl t n
  | succ levels ih => exact rebuilds_buildCopyWith ih

/-! ### The master tree -/

/-- The new node of a leaf that is split takes the next address. -/
theorem SplitOf.addrs_new
    (h : SplitOf n v rs f (n + 1) s) : s.1.addrs.Subperm (range' n (s.2 - n)) := by
  have hcut := range'_cut (Nat.le_succ n) h.le
  rw [Nat.succ_sub (Nat.le_refl n), Nat.sub_self] at hcut
  rw [hcut]
  exact h.addrs.trans perm_append_comm.subperm

/-- Building keeps the rules. -/
theorem build_rebuilt (path : Path) (t : Cnode ε α) (h : Heap) :
    Rebuilt t h.next ((build path t h).1, (build path t h).2.next) := by
  induction t generalizing path h with
  | null => exact .refl _ _
  | leaf a v rs next ih =>
    unfold build
    cases hc : splitChoice path rs with
    | none =>
      exact Rebuilt.chain (isNode_leaf a v rs) (isNode_leaf a v rs) (.refl _ _) (ih path h)
    | some c =>
      have hs := splitLeaf_spec (rebuilds_buildCopy (numFields ε)) path h.next v rs c.1 c.2
        (h.next + 1)
      have hre : Rebuilt (leaf a v rs null) h.next _ := hs.rebuilt (splitChoice_lt hc)
        (Nat.le_succ _) (hs.addrs_new.trans (sublist_append_left _ _).subperm)
      exact Rebuilt.chain (isNode_leaf a v rs) hs.isNode hre (ih path ⟨_, _⟩)
  | split a v rs f m cs any next ihc iha ih =>
    exact Rebuilt.chain (isNode_split ..) (isNode_split ..)
      (Rebuilt.children (ihc _ h) (iha _ _)) (ih path _)

/-- The map of rules follows rules to other nodes, and nothing else in it changes. -/
structure Repoint (E E' : List (ℕ × Rule ε α)) (rules rules' : IdMap) : Prop where
  ids : ∀ e' ∈ E', ∃ e ∈ E, e.2.id = e'.2.id
  frame : ∀ id, (∀ e ∈ E, e.2.id ≠ id) → rules' id = rules id
  points : (∀ e ∈ E, rules e.2.id = some (some e.1)) →
    ∀ e ∈ E', rules' e.2.id = some (some e.1)

omit [Expr ε] in
theorem Repoint.refl (E : List (ℕ × Rule ε α)) (rules : IdMap) : Repoint E E rules rules :=
  ⟨fun e he => ⟨e, he, rfl⟩, fun _ _ => rfl, id⟩

omit [Expr ε] in
/-- Two parts of a tree, one after the other: neither touches the rules of the other. -/
theorem Repoint.append {E E' F F' : List (ℕ × Rule ε α)} {r0 r1 r2 : IdMap}
    (hnd : ((E ++ F).map fun e => e.2.id).Nodup) (hE : Repoint E E' r0 r1)
    (hF : Repoint F F' r1 r2) : Repoint (E ++ F) (E' ++ F') r0 r2 := by
  rw [map_append, nodup_append] at hnd
  have hne : ∀ e ∈ E, ∀ g ∈ F, e.2.id ≠ g.2.id := fun e he g hg =>
    hnd.2.2 _ (mem_map_of_mem he) _ (mem_map_of_mem hg)
  refine ⟨fun e' he' => ?_, fun id hid => ?_, fun hp => ?_⟩
  · rcases mem_append.1 he' with he' | he'
    · obtain ⟨e, he, hid⟩ := hE.ids e' he'
      exact ⟨e, mem_append_left _ he, hid⟩
    · obtain ⟨e, he, hid⟩ := hF.ids e' he'
      exact ⟨e, mem_append_right _ he, hid⟩
  · rw [forall_mem_append] at hid
    rw [hF.frame id hid.2, hE.frame id hid.1]
  · rw [forall_mem_append] at hp ⊢
    refine ⟨fun e' he' => ?_, hF.points fun e he => ?_⟩
    · obtain ⟨e, he, hid⟩ := hE.ids e' he'
      rw [hF.frame _ fun g hg => hid ▸ (hne e he g hg).symm]
      exact hE.points hp.1 e' he'
    · rw [hE.frame _ fun g hg => hne g hg e he]
      exact hp.2 e he

omit [Expr ε] in
theorem map_id_entries (t : Cnode ε α) : (t.entries.map fun e => e.2.id) = t.rules.map Rule.id := by
  rw [Cnode.rules, List.map_map]
  rfl

omit [Expr ε] in
/-- A copy takes the place of a tree, which is destroyed: the rules point to the copy. -/
theorem repoint_copy {s : Cnode ε α} (rules : IdMap) (hnd : (t.entries.map fun e => e.2.id).Nodup)
    (hrules : s.rules.Perm t.rules) (hnew : ∀ a ∈ s.addrs, a ∉ t.addrs) :
    Repoint t.entries s.entries rules (destroy t (setNodePointers s rules)) := by
  have hids : ∀ {x y : Cnode ε α}, x.rules.Perm y.rules → ∀ e ∈ x.entries,
      ∃ e' ∈ y.entries, e'.2.id = e.2.id := by
    intro x y hxy e he
    obtain ⟨e', he', heq⟩ := mem_map.1 (hxy.subset (mem_map_of_mem (f := Prod.snd) he))
    exact ⟨e', he', congrArg Rule.id heq⟩
  have hnd' : (s.entries.map fun e => e.2.id).Nodup := by
    rw [map_id_entries] at hnd ⊢
    exact (hrules.map Rule.id).nodup_iff.2 hnd
  obtain ⟨hpoint, hframe⟩ := pointing_setNodePointers hnd' rules
  refine ⟨hids hrules, fun id hid => ?_, fun _ e he => ?_⟩
  · rw [destroy_eq fun e he heq => absurd heq (hid e he)]
    refine hframe id fun e he => ?_
    obtain ⟨e', he', heq⟩ := hids hrules e he
    exact heq ▸ hid e' he'
  · rw [destroy_eq]
    · exact hpoint e he
    · intro e' he' _ heq
      rw [hpoint e he, some.injEq, some.injEq] at heq
      exact hnew e.1 (mem_addrs_of_mem_entries he) (heq ▸ mem_addrs_of_mem_entries he')

/-- **Building moves the pointers with the rules**: after it every rule of the tree points to its
node, and no other pointer changes. -/
theorem build_repoint (path : Path) (t : Cnode ε α) (h : Heap)
    (hnd : (t.entries.map fun e => e.2.id).Nodup) (hlt : ∀ a ∈ t.addrs, a < h.next) :
    Repoint t.entries (build path t h).1.entries h.rules (build path t h).2.rules := by
  induction t generalizing path h with
  | null => exact .refl _ _
  | leaf a v rs next ih =>
    rw [entries_leaf] at hnd
    have hparts := hnd
    rw [map_append] at hparts
    rw [addrs_leaf, forall_mem_cons] at hlt
    unfold build
    cases hc : splitChoice path rs with
    | none => exact Repoint.append hnd (.refl _ _) (ih path h hparts.of_append_right hlt.2)
    | some c =>
      have hs := splitLeaf_spec (rebuilds_buildCopy (numFields ε)) path h.next v rs c.1 c.2
        (h.next + 1)
      have hcopy := repoint_copy h.rules (t := leaf a v rs null)
        (by simpa using hparts.of_append_left) (by simpa using hs.rules) (fun b hb => by
          have hnew := mem_range'_1.1 (hs.addrs_new.subset hb)
          simp only [addrs_leaf, addrs_null, mem_singleton]
          omega)
      rw [entries_withNext hs.isNode]
      refine Repoint.append hnd ?_ (ih path ⟨_, _⟩ hparts.of_append_right fun b hb => ?_)
      · simpa using hcopy
      · exact Nat.lt_of_lt_of_le (hlt.2 b hb) (Nat.le_of_succ_le hs.le)
  | split a v rs f m cs any next ihc iha ih =>
    rw [entries_split] at hnd
    have hhead := hnd
    rw [map_append] at hhead
    have hsub := hhead.of_append_left
    rw [map_append] at hsub
    have hkids := hsub.of_append_right
    rw [map_append] at hkids
    rw [addrs_split, forall_mem_cons, forall_mem_append, forall_mem_append] at hlt
    obtain ⟨-, ⟨hltc, hlta⟩, hltn⟩ := hlt
    -- the addresses only grow from one part to the next
    have hc := build_rebuilt (path ||| masks f) cs h
    have hd := build_rebuilt (path ||| masks f) any (build (path ||| masks f) cs h).2
    have hrc := ihc (path ||| masks f) h hkids.of_append_left hltc
    have hra := iha (path ||| masks f) _ hkids.of_append_right
      fun b hb => Nat.lt_of_lt_of_le (hlta b hb) hc.le
    have hrn := ih path _ hhead.of_append_right
      fun b hb => Nat.lt_of_lt_of_le (hltn b hb) (Nat.le_trans hc.le hd.le)
    rw [← map_append] at hkids hsub
    exact ((Repoint.refl (rs.map (a, ·)) h.rules).append hsub (hrc.append hkids hra)).append hnd hrn

/-! ### Unbuilding and cleaning -/

/-- Unbuilding a tree keeps the rules, in one list by priority. -/
theorem unbuild_rebuilt (ht : IsNode t) (h : Heap) :
    Rebuilt t h.next ((unbuild t h).1, (unbuild t h).2.next) := by
  cases t with
  | null | leaf => exact .refl _ _
  | split a v rs f m cs any next =>
    obtain rfl : null = next := by
      have := ht.2
      simpa [withNext] using this
    have hmerge := foldl_merge ((nodeLists (split a v rs f m cs any null)).flatMap Prod.snd) []
    have hrules : ((nodeLists (split a v rs f m cs any null)).flatMap Prod.snd).foldl
        (fun l m => l.merge m listCompare) [] |>.Perm (split a v rs f m cs any null).rules :=
      hmerge.1.trans (nodeLists_perm _)
    refine ⟨?_, rfl, Nat.le_succ _, ?_, fun hwf => ?_, fun g hu => ?_, nofun⟩
    · simpa [unbuild] using hrules
    · simp [unbuild]
    · exact ⟨hmerge.2 List.Pairwise.nil (nodeLists_sorted hwf), trivial⟩
    · refine ⟨fun r hr => ?_, hu.2⟩
      have hr := hrules.subset hr
      rw [rules_split, rules_null, append_nil] at hr
      exact hu.1 r hr

/-- Unbuilding moves the pointers with the rules. -/
theorem unbuild_repoint (ht : IsNode t) (h : Heap)
    (hnd : (t.entries.map fun e => e.2.id).Nodup) (hlt : ∀ a ∈ t.addrs, a < h.next) :
    Repoint t.entries (unbuild t h).1.entries h.rules (unbuild t h).2.rules := by
  have hre := unbuild_rebuilt ht h
  cases t with
  | null | leaf => exact .refl _ _
  | split a v rs f m cs any next =>
    refine repoint_copy h.rules hnd hre.rules fun b hb hb' => ?_
    have hb : b = h.next := by simpa [unbuild] using hb
    exact Nat.lt_irrefl _ (hb ▸ hlt b hb')

/-- Cleaning keeps the rules. -/
theorem clean_rebuilt (t : Cnode ε α) (n : ℕ) : Rebuilt t n (clean t, n) := by
  cases t with
  | null | leaf => exact .refl _ _
  | split a v rs f m cs any next =>
    refine ⟨?_, rfl, Nat.le_refl n, ?_, fun h => ?_, fun g h => ?_, fun g hg => .inl ?_⟩
    · simp [clean, rules_prune]
    · refine List.Sublist.subperm (List.Sublist.trans ?_ (sublist_append_right _ _))
      exact (((addrs_prune cs).append (addrs_prune any)).append (List.Sublist.refl _)).cons_cons a
    · exact ⟨h.1, ⟨h.2.1.1.prune, by rw [rules_prune]; exact h.2.1.2⟩,
        ⟨h.2.2.1.1.prune, h.2.2.1.2.prune⟩, h.2.2.2⟩
    · simpa [clean, Under, rules_prune] using h
    · simp only [clean, fields, mem_cons, mem_append] at hg ⊢
      rcases hg with (hg | hg | hg) | hg
      · exact .inl (.inl hg)
      · exact .inl (.inr (.inl (fields_prune cs hg)))
      · exact .inl (.inr (.inr (fields_prune any hg)))
      · exact .inr hg

omit [Expr ε] in
theorem entries_clean (t : Cnode ε α) : (clean t).entries = t.entries := by
  cases t with
  | null | leaf => rfl
  | split a v rs f m cs any next => simp [clean, entries_prune]

end NoxClassic.Classifier
