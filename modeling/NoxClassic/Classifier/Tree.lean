/-
# Rules in their places

A tree is in order (`WF`) when every list is sorted by priority and, below a node split on
a field, a rule is under the child that has its value of the field, or under `any_node` if
it has none.  The operations are described by what they do to the entries of a tree, the
pairs of a node's address and a rule in its list, whatever the shape of the tree.
-/

import NoxClassic.Classifier.Result
import NoxClassic.Lib.Perm

namespace NoxClassic.Classifier

open List Cnode Classifier.Expr Lib

variable {ε α : Type}

/-! ### Trees in order -/

variable {t cs : Cnode ε α} {f m n : ℕ} {v : Value} {rs : List (Rule ε α)} {r : Rule ε α}
    {sel : Option Value}

namespace Cnode

/-- The values of the nodes of a chain. -/
def values (t : Cnode ε α) : List Value := t.siblings.map Cnode.value

/-- The rules below a chain. -/
def rules (t : Cnode ε α) : List (Rule ε α) := t.entries.map Prod.snd

@[simp] theorem values_leaf (a : ℕ) (v : Value) (rs : List (Rule ε α)) (next : Cnode ε α) :
    values (leaf a v rs next) = v :: values next := rfl

@[simp] theorem values_split (a : ℕ) (v : Value) (rs : List (Rule ε α)) (f m : ℕ)
    (cs any next : Cnode ε α) : values (split a v rs f m cs any next) = v :: values next := rfl

@[simp] theorem entries_null : entries (null : Cnode ε α) = [] := rfl

@[simp] theorem entries_leaf (a : ℕ) (v : Value) (rs : List (Rule ε α)) (next : Cnode ε α) :
    entries (leaf a v rs next) = rs.map (a, ·) ++ entries next := rfl

@[simp] theorem entries_split (a : ℕ) (v : Value) (rs : List (Rule ε α)) (f m : ℕ)
    (cs any next : Cnode ε α) : entries (split a v rs f m cs any next) =
      rs.map (a, ·) ++ (entries cs ++ entries any) ++ entries next := rfl

@[simp] theorem addrs_null : addrs (null : Cnode ε α) = [] := rfl

@[simp] theorem addrs_leaf (a : ℕ) (v : Value) (rs : List (Rule ε α)) (next : Cnode ε α) :
    addrs (leaf a v rs next) = a :: addrs next := rfl

@[simp] theorem addrs_split (a : ℕ) (v : Value) (rs : List (Rule ε α)) (f m : ℕ)
    (cs any next : Cnode ε α) : addrs (split a v rs f m cs any next) =
      a :: ((addrs cs ++ addrs any) ++ addrs next) := rfl

@[simp] theorem rules_null : rules (null : Cnode ε α) = [] := rfl

@[simp] theorem rules_leaf (a : ℕ) (v : Value) (rs : List (Rule ε α)) (next : Cnode ε α) :
    rules (leaf a v rs next) = rs ++ rules next := by
  simp [rules, entries, Function.comp_def]

@[simp] theorem rules_split (a : ℕ) (v : Value) (rs : List (Rule ε α)) (f m : ℕ)
    (cs any next : Cnode ε α) : rules (split a v rs f m cs any next) =
      rs ++ (rules cs ++ rules any) ++ rules next := by
  simp [rules, entries, Function.comp_def]

/-- The fields that the nodes of a tree are split on. -/
def fields : Cnode ε α → List ℕ
  | null => []
  | leaf _ _ _ next => fields next
  | split _ _ _ f _ cs any next => f :: (fields cs ++ fields any) ++ fields next

/-- The nodes of a tree, each with its address and its list. -/
def lists : Cnode ε α → List (ℕ × List (Rule ε α))
  | null => []
  | leaf a _ rs next => (a, rs) :: lists next
  | split a _ rs _ _ cs any next => (a, rs) :: (lists cs ++ lists any) ++ lists next

theorem map_lists (t : Cnode ε α) : (lists t).map Prod.fst = t.addrs := by
  induction t with
  | null => rfl
  | leaf a v rs next ih => rw [lists, map_cons, ih, addrs_leaf]
  | split a v rs f m cs any next ihc iha ihn =>
    rw [lists, map_append, map_cons, map_append, ihc, iha, ihn, addrs_split, cons_append]

theorem flatMap_lists (t : Cnode ε α) :
    ((lists t).flatMap fun p => p.2.map (p.1, ·)) = t.entries := by
  induction t with
  | null => rfl
  | leaf a v rs next ih => rw [lists, flatMap_cons, ih, entries_leaf]
  | split a v rs f m cs any next ihc iha ihn =>
    rw [lists, flatMap_append, flatMap_cons, flatMap_append, ihc, iha, ihn, entries_split]

/-- A rule is in the list of a node of the tree. -/
theorem mem_addrs_of_mem_entries {e : ℕ × Rule ε α} (h : e ∈ t.entries) : e.1 ∈ t.addrs := by
  rw [← flatMap_lists] at h
  obtain ⟨p, hp, he⟩ := mem_flatMap.1 h
  obtain ⟨r, -, rfl⟩ := mem_map.1 he
  exact map_lists t ▸ mem_map_of_mem hp

theorem mem_rules_iff : r ∈ t.rules ↔ ∃ p ∈ lists t, r ∈ p.2 := by
  rw [rules, ← flatMap_lists]
  simp

end Cnode

variable [Expr ε]

/-- Each rule below a node of the chain has its value of the field, and no two nodes have the same
value. -/
def Under (f : ℕ) : Cnode ε α → Prop
  | null => True
  | leaf _ v rs next =>
    (∀ r ∈ rs, getField r.expr f = some v) ∧ v ∉ next.values ∧ Under f next
  | split _ v rs _ _ cs any next =>
    (∀ r ∈ rs ++ (cs.rules ++ any.rules), getField r.expr f = some v) ∧ v ∉ next.values ∧
      Under f next

/-- The tree is in order. -/
def WF : Cnode ε α → Prop
  | null => True
  | leaf _ _ rs next => Sorted rs ∧ WF next
  | split _ _ rs f _ cs any next =>
    Sorted rs ∧ (Under f cs ∧ ∀ r ∈ any.rules, getField r.expr f = none) ∧
      (WF cs ∧ WF any) ∧ WF next

/-- The values of a chain are distinct. -/
theorem Under.nodup (h : Under f t) : t.values.Nodup := by
  induction t with
  | null => exact nodup_nil
  | leaf a v rs next ih | split a v rs f m cs any next _ _ ih =>
    exact nodup_cons.2 ⟨h.2.1, ih h.2.2⟩

omit [Expr ε] in
/-- A child is found exactly by its value. -/
theorem findChild_isSome : (findChild m v cs).isSome = true ↔ v ∈ cs.values := by
  unfold findChild
  rw [List.find?_isSome]
  constructor
  · rintro ⟨c, hc, hv⟩
    exact mem_map.2 ⟨c, mem_of_mem_filter hc, by simpa using hv⟩
  · intro h
    obtain ⟨c, hc, rfl⟩ := mem_map.1 h
    exact ⟨c, mem_filter.2 ⟨hc, by simp⟩, by simp⟩

/-! ### Lists of rules -/

omit [Expr ε] in
theorem addRuleToList_perm (r : Rule ε α) (rs : List (Rule ε α)) :
    (addRuleToList r rs).Perm (r :: rs) := by
  induction rs with
  | nil => exact .refl _
  | cons s rs ih =>
    unfold addRuleToList
    split
    · exact .refl _
    · exact (ih.cons s).trans (List.Perm.swap ..)

omit [Expr ε] in
theorem addRuleToList_sorted (r : Rule ε α) (h : Sorted rs) : Sorted (addRuleToList r rs) := by
  induction rs with
  | nil => exact pairwise_singleton ..
  | cons s rs ih =>
    have hs := pairwise_cons.1 h
    unfold addRuleToList
    split
    · next hle =>
      refine pairwise_cons.2 ⟨forall_mem_cons.2 ⟨hle, fun x hx => ?_⟩, h⟩
      exact Nat.le_trans hle (hs.1 x hx)
    · next hlt =>
      refine pairwise_cons.2 ⟨fun x hx => ?_, ih hs.2⟩
      rcases mem_cons.1 ((addRuleToList_perm r rs).subset hx) with rfl | hx
      · exact Nat.le_of_lt (Nat.not_le.1 hlt)
      · exact hs.1 x hx

/-! ### Adding a rule -/

/-- The chain has the node that is asked for. -/
def Has (sel : Option Value) (t : Cnode ε α) : Prop :=
  match sel with
  | none => t.isNull = false
  | some v => v ∈ t.values

/-- What adding a rule does. -/
structure AddSpec (r : Rule ε α) (sel : Option Value) (n : ℕ) (t : Cnode ε α) (s : Added ε α) :
    Prop where
  entries : s.tree.entries.Perm ((s.place, r) :: t.entries)
  values : s.tree.values = t.values
  le : n ≤ s.next
  addrs : s.tree.addrs.Perm (List.range' n (s.next - n) ++ t.addrs)
  wf : WF t → WF s.tree
  under : ∀ f w, sel = some w → getField r.expr f = some w → Under f t → Under f s.tree

theorem AddSpec.rules {s : Added ε α}
    (h : AddSpec r sel n t s) : s.tree.rules.Perm (r :: t.rules) :=
  h.entries.map Prod.snd

/-- A rule comes to the list of the first node, which is a leaf. -/
theorem addSpec_leaf (r : Rule ε α) (n a : ℕ)
    (rs : List (Rule ε α)) (next : Cnode ε α) (hsel : sel.getD v = v) :
    AddSpec r sel n (leaf a v rs next) ⟨leaf a v (addRuleToList r rs) next, a, n⟩ where
  entries := ((addRuleToList_perm r rs).map (a, ·)).append_right _
  values := rfl
  le := Nat.le_refl n
  addrs := by
    rw [Nat.sub_self]
    exact .refl _
  wf h := ⟨addRuleToList_sorted r h.1, h.2⟩
  under f w hw hr h := by
    obtain rfl : w = v := by rwa [hw] at hsel
    refine ⟨fun r' hr' => ?_, h.2⟩
    rcases mem_cons.1 ((addRuleToList_perm r rs).subset hr') with rfl | hr'
    · exact hr
    · exact h.1 r' hr'

/-- The first node, which is split, has one more rule, in its list or below it. -/
theorem addSpec_split {a : ℕ}
    {rs' : List (Rule ε α)} {cs' any any' next : Cnode ε α} {place n' : ℕ}
    (hsel : sel.getD v = v) (hle : n ≤ n')
    (hentries : (rs'.map (a, ·) ++ (cs'.entries ++ any'.entries)).Perm
      ((place, r) :: (rs.map (a, ·) ++ (cs.entries ++ any.entries))))
    (haddrs : (cs'.addrs ++ any'.addrs).Perm (List.range' n (n' - n) ++ (cs.addrs ++ any.addrs)))
    (hwf : WF (split a v rs f m cs any null) → WF (split a v rs' f m cs' any' null)) :
    AddSpec r sel n (split a v rs f m cs any next)
      ⟨split a v rs' f m cs' any' next, place, n'⟩ where
  entries := hentries.append_right _
  values := rfl
  le := hle
  addrs := perm_append_middle _ haddrs [a] next.addrs
  wf h := by
    have := hwf ⟨h.1, h.2.1, h.2.2.1, trivial⟩
    exact ⟨this.1, this.2.1, this.2.2.1, h.2.2.2⟩
  under g w hw hr h := by
    obtain rfl : w = v := by rwa [hw] at hsel
    have hrules : (rs' ++ (cs'.rules ++ any'.rules)).Perm
        (r :: (rs ++ (cs.rules ++ any.rules))) := by
      have := hentries.map Prod.snd
      simpa [Cnode.rules, Function.comp_def] using this
    refine ⟨fun r' hr' => ?_, h.2⟩
    rcases mem_cons.1 (hrules.subset hr') with rfl | hr'
    · exact hr
    · exact h.1 r' hr'

/-- **`add_rule`** puts one rule in its place. -/
theorem addRule_spec (r : Rule ε α) (path : Path) (sel : Option Value) (n : ℕ)
    (h : Has sel t) : AddSpec r sel n t (addRule r t path sel n) := by
  induction t generalizing path sel n with
  | null =>
    cases sel with
    | none | some => nomatch h
  | leaf a v rs next ih =>
    unfold addRule
    split_ifs with hsel
    · exact addSpec_leaf r n a rs next hsel
    -- a value is asked for, and it is another
    cases sel with
    | none => exact absurd rfl hsel
    | some w =>
      have ih := ih path (some w) n ((mem_cons.1 h).resolve_left hsel)
      refine ⟨?_, congrArg (v :: ·) ih.values, ih.le, ?_, fun hw => ⟨hw.1, ih.wf hw.2⟩, ?_⟩
      · exact (ih.entries.append_left _).trans perm_middle
      · exact (ih.addrs.cons a).trans perm_middle.symm
      · intro f w' hw' hr hu
        exact ⟨hu.1, ih.values ▸ hu.2.1, ih.under f w' hw' hr hu.2.2⟩
  | split a v rs f m cs any next ihc iha ihn =>
    unfold addRule
    split
    · rename_i hsel
      split
      · refine addSpec_split hsel (Nat.le_refl n) ?_ ?_ fun hw => ?_
        · exact ((addRuleToList_perm r rs).map (a, ·)).append_right _
        · rw [Nat.sub_self]
          exact .refl _
        · exact ⟨addRuleToList_sorted r hw.1, hw.2⟩
      · cases hf : getField r.expr f with
        | some w =>
          dsimp only
          split_ifs with hfind
          · have ih := ihc (path ||| masks f) (some w) n (findChild_isSome.1 hfind)
            refine addSpec_split hsel ih.le ?_ ?_ fun hw => ?_
            · have := perm_append_middle [_] ih.entries (rs.map (a, ·)) any.entries
              simpa only [append_assoc, singleton_append] using this
            · exact perm_append_middle _ ih.addrs [] any.addrs
            · exact ⟨hw.1, ⟨ih.under f w rfl hf hw.2.1.1, hw.2.1.2⟩,
                ⟨ih.wf hw.2.2.1.1, hw.2.2.1.2⟩, trivial⟩
          · have hnot : w ∉ cs.values := fun h => hfind (findChild_isSome.2 h)
            refine addSpec_split hsel (Nat.le_succ n) ?_ ?_ fun hw => ?_
            · exact perm_middle
            · rw [Nat.add_sub_cancel_left]
              exact .refl _
            · exact ⟨hw.1, ⟨⟨forall_mem_singleton.2 hf, hnot, hw.2.1.1⟩, hw.2.1.2⟩,
                ⟨⟨pairwise_singleton .., hw.2.2.1.1⟩, hw.2.2.1.2⟩, trivial⟩
        | none =>
          by_cases hnull : any.isNull = true
          · obtain rfl : any = null := by
              cases any with
              | null => rfl
              | leaf | split => nomatch hnull
            refine addSpec_split hsel (Nat.le_succ n) ?_ ?_ fun hw => ?_
            · simp only [entries_leaf, entries_null, append_nil, ← append_assoc]
              exact perm_append_singleton _ _
            · rw [Nat.add_sub_cancel_left, addrs_null, append_nil]
              exact perm_append_comm
            · refine ⟨hw.1, ⟨hw.2.1.1, ?_⟩, ⟨hw.2.2.1.1, pairwise_singleton .., trivial⟩,
                trivial⟩
              exact forall_mem_singleton.2 hf
          · rw [if_neg hnull]
            have ih := iha (path ||| masks f) none n (Bool.eq_false_iff.2 hnull)
            refine addSpec_split hsel ih.le ?_ ?_ fun hw => ?_
            · have := perm_append_middle [_] ih.entries (rs.map (a, ·) ++ cs.entries) []
              simpa only [append_assoc, singleton_append, append_nil] using this
            · have := perm_append_middle _ ih.addrs cs.addrs []
              simpa only [append_nil] using this
            · refine ⟨hw.1, ⟨hw.2.1.1, fun r' hr' => ?_⟩,
                ⟨hw.2.2.1.1, ih.wf hw.2.2.1.2⟩, trivial⟩
              rcases mem_cons.1 (ih.rules.subset hr') with rfl | hr'
              · exact hf
              · exact hw.2.1.2 r' hr'
    · rename_i hsel
      cases sel with
      | none => exact absurd rfl hsel
      | some w =>
        have ih := ihn path (some w) n ((mem_cons.1 h).resolve_left hsel)
        refine ⟨?_, congrArg (v :: ·) ih.values, ih.le, ?_,
          fun hw => ⟨hw.1, hw.2.1, hw.2.2.1, ih.wf hw.2.2.2⟩, ?_⟩
        · exact (ih.entries.append_left _).trans perm_middle
        · have := perm_append_middle _ ih.addrs (a :: (cs.addrs ++ any.addrs)) []
          simpa only [append_nil, cons_append, addrs_split] using this
        · intro f' w' hw' hr hu
          exact ⟨hu.1, ih.values ▸ hu.2.1, ih.under f' w' hw' hr hu.2.2⟩

/-- No node is split when a rule is added. -/
theorem fields_addRule (r : Rule ε α) (t : Cnode ε α) (path : Path) (sel : Option Value) (n : ℕ) :
    fields (addRule r t path sel n).tree = fields t := by
  induction t generalizing path sel n with
  | null => rfl
  | leaf a v rs next ih =>
    unfold addRule
    split
    · rfl
    · exact ih path sel n
  | split a v rs f m cs any next ihc iha ihn =>
    unfold addRule
    split
    · split
      · rfl
      split
      · split
        · simp only [fields, ihc]
        · rfl
      · split
        · next hnull =>
          cases any with
          | null => rfl
          | leaf | split => nomatch hnull
        · simp only [fields, iha]
    · simp only [fields, ihn]

end NoxClassic.Classifier
