/-
# A lookup finds the rules that match

`get_rules` walks the tree with a stack.  At a node that is split it asks the data for its
values of the field and goes to the children with these values and to the one for rules
without a value (`any_node`); where the data has no value it goes to every child.

A rule below a child has the value of the child.  So if a rule that matches has no value of
a field, or the data has none, or the data has its value once (`Asked`), then the walk
comes to the rule once, whatever the shape of the tree (`lookup_spec`).  The program stops
only where the data cannot be asked for a field of the tree or matched with a rule in it.
-/

import Mathlib.Algebra.Order.BigOperators.Group.List
import Mathlib.Algebra.Order.Ring.Nat
import NoxClassic.Classifier.Build

namespace NoxClassic.Classifier

open List Cnode Classifier.Expr Lib Nat

variable {ε α : Type}

/-! ### The nodes of a chain -/

/-- The rules in a node and below it. -/
def inner (t : Cnode ε α) : List (Rule ε α) := (t.withNext null).rules

theorem siblings_inner (t : Cnode ε α) : t.siblings.flatMap inner = t.rules := by
  induction t with
  | null => rfl
  | leaf a v rs next ih | split a v rs f m cs any next _ _ ih =>
    simp [siblings, inner, withNext, ih]

theorem siblings_value (t : Cnode ε α) : t.siblings.map value = t.values := by
  induction t with
  | null => rfl
  | leaf a v rs next ih | split a v rs f m cs any next _ _ ih => exact congrArg (v :: ·) ih

theorem siblings_visits (q : Query ε) (t : Cnode ε α) :
    (t.siblings.map fun c => visits q (c.withNext null)).sum = visits q t := by
  induction t with
  | null => rfl
  | leaf a v rs next ih | split a v rs f m cs any next _ _ ih =>
    rw [siblings, map_cons, sum_cons, ih]
    rfl

variable {c t : Cnode ε α} {f : ℕ}

theorem siblings_isNull (hc : c ∈ t.siblings) : c.isNull = false := by
  induction t with
  | null => nomatch hc
  | leaf a v rs next ih | split a v rs f m cs any next _ _ ih =>
    rcases mem_cons.1 hc with rfl | hc
    · rfl
    · exact ih hc

theorem inner_subset (hc : c ∈ t.siblings) : inner c ⊆ t.rules := fun r hr => by
  rw [← siblings_inner]
  exact mem_flatMap.2 ⟨c, hc, hr⟩

theorem fields_subset (hc : c ∈ t.siblings) : fields (c.withNext null) ⊆ fields t := by
  induction t with
  | null => nomatch hc
  | leaf a v rs next ih =>
    rcases mem_cons.1 hc with rfl | hc
    · exact nil_subset _
    · exact ih hc
  | split a v rs f m cs any next _ _ ih =>
    rcases mem_cons.1 hc with rfl | hc
    · rw [withNext, fields, fields, fields, append_nil]
      exact subset_append_left _ _
    · exact subset_append_of_subset_right _ (ih hc)

/-- The child with a value is the one of the chain: it is in its bucket. -/
theorem findChild_eq (m : ℕ) (v : Value) (cs : Cnode ε α) :
    findChild m v cs = cs.siblings.find? fun c => c.value = v := by
  rw [findChild, find?_filter]
  refine congrArg (fun p => cs.siblings.find? p) (funext fun c => ?_)
  by_cases h : c.value = v <;> simp [h]

variable [Expr ε]

/-- The rules below a child have its value. -/
theorem Under.sibling (h : Under f t) (hc : c ∈ t.siblings)
    {r : Rule ε α} (hr : r ∈ inner c) : getField r.expr f = some c.value := by
  induction t with
  | null => nomatch hc
  | leaf a v rs next ih | split a v rs g m cs any next _ _ ih =>
    rcases mem_cons.1 hc with rfl | hc
    · exact h.1 r (by simpa [inner, withNext] using hr)
    · exact ih h.2.2 hc

theorem WF.sibling (h : WF t) (hc : c ∈ t.siblings) : WF (c.withNext null) := by
  induction t with
  | null => nomatch hc
  | leaf a v rs next ih =>
    rcases mem_cons.1 hc with rfl | hc
    · exact ⟨h.1, trivial⟩
    · exact ih h.2 hc
  | split a v rs g m cs any next _ _ ih =>
    rcases mem_cons.1 hc with rfl | hc
    · exact ⟨h.1, h.2.1, h.2.2.1, trivial⟩
    · exact ih h.2.2.2 hc

theorem WF.ownRules (h : WF (t.withNext null)) : Sorted t.ownRules := by
  cases t with
  | null => exact Pairwise.nil
  | leaf | split => exact h.1

/-! ### Data that the tree can be asked for -/

/-- The data asks for the rule once: of each field among `F` where the rule has a value and the data
has some, the data has that value once. -/
def Asked (F : ℕ → Prop) (q : Query ε) (r : Rule ε α) : Prop :=
  ∀ f v vs, F f → getField r.expr f = some v → q.values f = some vs → vs = [] ∨ vs.count v = 1

/-- A tree in order that is split on fields among `F`, with data that asks for each rule that
matches once. -/
structure Ready (F : ℕ → Prop) (q : Query ε) (t : Cnode ε α) : Prop where
  wf : WF t
  among : ∀ f ∈ fields t, F f
  asked : ∀ r ∈ t.rules, hit q r = true → Asked F q r

section Walk

variable {F : ℕ → Prop} {q : Query ε}

theorem Ready.sibling (h : Ready F q t) (hc : c ∈ t.siblings) : Ready F q (c.withNext null) :=
  ⟨h.wf.sibling hc, fun f hf => h.among f (fields_subset hc hf),
    fun r hr => h.asked r (inner_subset hc hr)⟩

variable {cs root : Cnode ε α} {m : ℕ} {vs : List Value}

theorem Ready.children {a : ℕ} {v : Value} {rs : List (Rule ε α)} {any : Cnode ε α}
    (h : Ready F q (split a v rs f m cs any null)) : Ready F q cs ∧ Ready F q any := by
  have hrules : ∀ r ∈ cs.rules ++ any.rules, r ∈ (split a v rs f m cs any null).rules := by
    intro r hr
    rw [rules_split]
    exact mem_append_left _ (mem_append_right _ hr)
  have hfields : ∀ g ∈ fields cs ++ fields any, F g := fun g hg =>
    h.among g (mem_append_left _ (mem_cons_of_mem _ hg))
  rw [forall_mem_append] at hrules hfields
  exact ⟨⟨h.wf.2.2.1.1, hfields.1, fun r hr => h.asked r (hrules.1 r hr)⟩,
    ⟨h.wf.2.2.1.2, hfields.2, fun r hr => h.asked r (hrules.2 r hr)⟩⟩

omit [Expr ε] in
theorem length_valuesFrom {left idx : ℕ}
    (h : valuesFrom q f left idx = some vs) : vs.length ≤ left := by
  induction left generalizing idx vs with
  | zero =>
    cases h
    exact le_refl 0
  | succ left ih =>
    rw [valuesFrom] at h
    split at h
    · cases h
    · cases h
      exact zero_le _
    · obtain ⟨vs', hvs, rfl⟩ := Option.map_eq_some_iff.1 h
      exact succ_le_succ (ih hvs)

omit [Expr ε] in
theorem valuesFrom_of_list {left idx : ℕ}
    (h : ∀ i, q.getField f i = match vs[i]? with
      | some v => .value v
      | none => .absent) (hleft : vs.length < idx + left) :
    valuesFrom q f left idx = some (vs.drop idx) := by
  induction left generalizing idx with
  | zero =>
    have hle : vs.length ≤ idx := le_of_lt hleft
    rw [drop_eq_nil_of_le hle]
    rfl
  | succ left ih =>
    rw [valuesFrom, h idx]
    by_cases hidx : idx < vs.length
    · rw [getElem?_eq_getElem hidx, drop_eq_getElem_cons hidx]
      have hrest : valuesFrom q f left (idx + 1) = some (vs.drop (idx + 1)) := ih (by omega)
      rw [hrest]
      rfl
    · rw [getElem?_eq_none (by omega), drop_eq_nil_of_le (by omega)]

omit [Expr ε] in
/-- Data that goes through a list of values of a field. -/
theorem values_of_list
    (h : ∀ i, q.getField f i = match vs[i]? with
      | some v => .value v
      | none => .absent) (hlimit : vs.length ≤ q.limit) : q.values f = some vs := by
  have hall : valuesFrom q f (q.limit + 1) 0 = some (vs.drop 0) := valuesFrom_of_list h (by omega)
  rwa [drop_zero] at hall

/-- What is collected from the children that are found by values. -/
theorem flatMap_filterMap {β γ δ : Type} (g : β → Option γ) (k : γ → List δ) (l : List β) :
    (l.filterMap g).flatMap k = l.flatMap fun b => ((g b).map k).getD [] := by
  induction l with
  | nil => rfl
  | cons b l ih => cases hg : g b <;> simp [hg, ih]

/-- The children that `traverse` goes to. -/
def found (m : ℕ) (vs : List Value) (cs : Cnode ε α) : List (Cnode ε α) :=
  if vs.isEmpty then inBuckets m (cs.siblings.map fun c => (c.value, c))
  else vs.filterMap fun v => findChild m v cs

omit [Expr ε] in
theorem found_nil (m : ℕ) (cs : Cnode ε α) : (found m [] cs).Perm cs.siblings := by
  refine (inBuckets_perm m _).trans (.of_eq ?_)
  rw [map_map]
  exact map_id _

omit [Expr ε] in
theorem found_subset (hc : c ∈ found m vs cs) : c ∈ cs.siblings := by
  cases vs with
  | nil => exact (found_nil m cs).subset hc
  | cons v vs =>
    obtain ⟨w, -, hw⟩ := mem_filterMap.1 hc
    rw [findChild_eq] at hw
    exact mem_of_find?_eq_some hw

/-- The rules that match below the children are below those that `traverse` goes to, each as
often. -/
theorem found_rules (hf : F f) (hvs : q.values f = some vs) (hunder : Under f cs)
    (hasked : ∀ r ∈ cs.rules, hit q r = true → Asked F q r) :
    (((found m vs cs).flatMap inner).filter (hit q)).Perm (cs.rules.filter (hit q)) := by
  by_cases hnil : vs = []
  · subst hnil
    rw [← siblings_inner cs]
    exact ((found_nil m cs).flatMap_right inner).filter _
  · have hfound : found m vs cs = vs.filterMap fun v => findChild m v cs :=
      if_neg (by simpa using hnil)
    have honce : ∀ c ∈ cs.siblings, (inner c).filter (hit q) ≠ [] → vs.count c.value = 1 := by
      intro c hc hne
      obtain ⟨r, hr⟩ := exists_mem_of_ne_nil _ hne
      obtain ⟨hr, hhit⟩ := mem_filter.1 hr
      exact (hasked r (inner_subset hc hr) hhit f c.value vs hf (hunder.sibling hc hr)
        hvs).resolve_left hnil
    have hpick := flatMap_find?_perm value (fun c : Cnode ε α => (inner c).filter (hit q))
      (siblings_value cs ▸ hunder.nodup) honce
    rw [hfound, filter_flatMap, flatMap_filterMap, ← siblings_inner cs, filter_flatMap]
    simpa only [findChild_eq] using hpick

omit [Expr ε] in
/-- The nodes below the children that `traverse` goes to are bounded. -/
theorem found_visits (cs : Cnode ε α) (hvs : q.values f = some vs) :
    ((found m vs cs).map fun c => visits q (c.withNext null)).sum ≤
      (q.limit + 1) * visits q cs := by
  have hlen := length_valuesFrom hvs
  cases vs with
  | nil =>
    rw [((found_nil m cs).map _).sum_eq, siblings_visits]
    exact Nat.le_mul_of_pos_left _ (Nat.succ_pos _)
  | cons v vs =>
    have hle : ∀ c ∈ cs.siblings, visits q (c.withNext null) ≤ visits q cs := by
      intro c hc
      rw [← siblings_visits q cs]
      exact single_le_sum (fun _ _ => Nat.zero_le _) _ (mem_map_of_mem hc)
    refine (sum_le_card_nsmul _ (visits q cs) ?_).trans ?_
    · intro k hk
      obtain ⟨c, hc, rfl⟩ := mem_map.1 hk
      exact hle c (found_subset hc)
    · rw [length_map, nsmul_eq_mul, Nat.cast_id]
      exact Nat.mul_le_mul_right _ ((length_filterMap_le _ _).trans hlen)

/-! ### The walk -/

/-- What one node adds to the walk: its own rules, and nodes below it with the rest of its rules
that match. -/
structure Goes (F : ℕ → Prop) (q : Query ε) (t : Cnode ε α) (ts : List (Cnode ε α)) : Prop where
  isNull : ∀ c ∈ ts, c.isNull = false
  ready : ∀ c ∈ ts, Ready F q (c.withNext null)
  rules : ((t.ownRules ++ ts.flatMap inner).filter (hit q)).Perm ((inner t).filter (hit q))
  subset : ∀ c ∈ ts, inner c ⊆ inner t
  fields : ∀ c ∈ ts, fields (c.withNext null) ⊆ fields (t.withNext null)
  visits : (ts.map fun c => visits q (c.withNext null)).sum < visits q (t.withNext null)

/-- **One node of the walk**: the program stops where the data cannot be asked for the field. -/
theorem traversed_spec (hnull : t.isNull = false) (h : Ready F q (t.withNext null)) :
    (traversed q t = none ∧ ∃ f ∈ fields (t.withNext null), q.values f = none) ∨
      ∃ ts, traversed q t = some ts ∧ Goes F q t ts := by
  cases t with
  | null => nomatch hnull
  | leaf a v rs next =>
    refine .inr ⟨[], rfl, fun _ hc => absurd hc not_mem_nil,
      fun _ hc => absurd hc not_mem_nil, .of_eq ?_,
      fun _ hc => absurd hc not_mem_nil, fun _ hc => absurd hc not_mem_nil, succ_pos _⟩
    simp [inner, withNext, ownRules]
  | split a v rs f m cs any next =>
    cases hvs : q.values f with
    | none => exact .inl ⟨by rw [traversed, hvs]; rfl, f, mem_cons_self, hvs⟩
    | some vs =>
      obtain ⟨hcs, hany⟩ := h.children
      refine .inr ⟨(any.siblings ++ found m vs cs).reverse, by rw [traversed, hvs]; rfl, ?_⟩
      have hperm := reverse_perm (any.siblings ++ found m vs cs)
      have hmem : ∀ c ∈ (any.siblings ++ found m vs cs).reverse,
          c ∈ any.siblings ∨ c ∈ cs.siblings := fun c hc =>
        (mem_append.1 (hperm.subset hc)).imp_right found_subset
      have hinner : inner (split a v rs f m cs any next) = rs ++ (cs.rules ++ any.rules) := by
        simp [inner, withNext]
      refine ⟨fun c hc => ?_, fun c hc => ?_, ?_, fun c hc => ?_, fun c hc => ?_, ?_⟩
      · exact (hmem c hc).elim siblings_isNull siblings_isNull
      · exact (hmem c hc).elim hany.sibling hcs.sibling
      · rw [hinner, ownRules, filter_append, filter_append, filter_append]
        refine Perm.append_left _ (((hperm.flatMap_right inner).filter _).trans ?_)
        rw [flatMap_append, siblings_inner, filter_append]
        exact perm_append_comm.trans
          ((found_rules (h.among f mem_cons_self) hvs h.wf.2.1.1 hcs.asked).append_right _)
      · rw [hinner]
        refine subset_append_of_subset_right _ ?_
        rcases hmem c hc with hc | hc
        · exact subset_append_of_subset_right _ (inner_subset hc)
        · exact subset_append_of_subset_left _ (inner_subset hc)
      · refine subset_append_of_subset_left _ (subset_cons_of_subset f ?_)
        rcases hmem c hc with hc | hc
        · exact subset_append_of_subset_right _ (fields_subset hc)
        · exact subset_append_of_subset_left _ (fields_subset hc)
      · rw [(hperm.map _).sum_eq, map_append, sum_append_nat, siblings_visits]
        have hle := found_visits (m := m) cs hvs
        have heq : Classifier.visits q ((split a v rs f m cs any next).withNext null) =
          1 + ((q.limit + 1) * Classifier.visits q cs + Classifier.visits q any) + 0 := rfl
        omega

omit [Expr ε] in
theorem ownRules_subset (t : Cnode ε α) : t.ownRules ⊆ inner t := by
  cases t with
  | null => exact nil_subset _
  | leaf | split => simp [inner, withNext, Cnode.ownRules]

/-- **The walk** collects lists with the rules that match below the stack, each as often as it is
there, and other rules of the trees. -/
theorem getRulesLoop_spec {rounds : ℕ} {stack : List (Cnode ε α)} {res : CnodeResult ε α}
    (hv : res.Valid q) (hnull : ∀ t ∈ stack, t.isNull = false)
    (hready : ∀ t ∈ stack, Ready F q (t.withNext null))
    (hrounds : (stack.map fun c => visits q (c.withNext null)).sum < rounds) :
    (getRulesLoop q rounds stack res = none ∧
      ∃ t ∈ stack, ∃ f ∈ fields (t.withNext null), q.values f = none) ∨
    ∃ res', getRulesLoop q rounds stack res = some res' ∧ res'.Valid q ∧
      (res'.remaining.filter (hit q)).Perm ((res.remaining ++ stack.flatMap inner).filter (hit q)) ∧
      res'.remaining ⊆ res.remaining ++ stack.flatMap inner := by
  induction rounds generalizing stack res with
  | zero => exact absurd hrounds (not_lt_zero _)
  | succ rounds ih =>
    cases stack with
    | nil =>
      refine .inr ⟨res, rfl, hv, ?_, ?_⟩
      · rw [flatMap_nil, append_nil]
      · exact subset_append_left _ _
    | cons t stack =>
      rw [forall_mem_cons] at hnull hready
      rcases traversed_spec hnull.1 hready.1 with ⟨hnone, hf⟩ | ⟨ts, hts, hgo⟩
      · exact .inl ⟨by rw [getRulesLoop, hnone], t, mem_cons_self, hf⟩
      obtain ⟨hv', hrem⟩ := CnodeResult.push_spec hv hready.1.wf.ownRules
      have hlt := hgo.visits
      rw [map_cons, sum_cons] at hrounds
      have hsum : ((ts ++ stack).map fun c => visits q (c.withNext null)).sum < rounds := by
        rw [map_append, sum_append_nat]
        omega
      have hstep : getRulesLoop q (rounds + 1) (t :: stack) res =
          getRulesLoop q rounds (ts ++ stack) (res.push t.ownRules) := by
        rw [getRulesLoop, hts]
      rw [hstep]
      rcases ih hv' (forall_mem_append.2 ⟨hgo.isNull, hnull.2⟩)
        (forall_mem_append.2 ⟨hgo.ready, hready.2⟩) hsum with
        ⟨hnone, c, hc, f, hf, hvs⟩ | ⟨res', he, hres', hperm, hsub⟩
      · -- a node below is in the tree of the node
        refine .inl ⟨hnone, ?_⟩
        rcases mem_append.1 hc with hc | hc
        · exact ⟨t, mem_cons_self, f, hgo.fields c hc hf, hvs⟩
        · exact ⟨c, mem_cons_of_mem _ hc, f, hf, hvs⟩
      rw [hrem, flatMap_append] at hperm hsub
      refine .inr ⟨res', he, hres', hperm.trans ?_, fun r hr => ?_⟩
      · have hnode := hgo.rules
        simp only [flatMap_cons, filter_append] at hnode ⊢
        rw [append_assoc, ← append_assoc (filter _ t.ownRules)]
        exact (hnode.append_right _).append_left _
      · have hbelow : ts.flatMap inner ⊆ inner t := fun r hr => by
          obtain ⟨c, hc, hr⟩ := mem_flatMap.1 hr
          exact hgo.subset c hc hr
        have hr := hsub hr
        simp only [flatMap_cons, mem_append] at hr ⊢
        rcases hr with (hr | hr) | hr | hr
        · exact .inl hr
        · exact .inr (.inl (ownRules_subset t hr))
        · exact .inr (.inl (hbelow hr))
        · exact .inr (.inr hr)

/-- What `get_rules` puts together. -/
theorem getRules_spec (hroot : IsNode root) (h : Ready F q root) :
    (getRules q root = none ∧ ∃ f ∈ fields root, q.values f = none) ∨
    ∃ res, getRules q root = some res ∧ res.Valid q ∧
      (res.remaining.filter (hit q)).Perm (root.rules.filter (hit q)) ∧
      res.remaining ⊆ root.rules := by
  have hstack : [root].flatMap inner = root.rules := by
    rw [flatMap_singleton, inner, hroot.2]
  have hsum : ([root].map fun c => visits q (c.withNext null)).sum < visits q root + 1 := by
    simp [hroot.2]
  rcases getRulesLoop_spec (CnodeResult.valid_empty q) (by simpa using hroot.1)
    (by simpa [hroot.2] using h) hsum with ⟨hnone, t, ht, hf⟩ | ⟨res, he, hv, hperm, hsub⟩
  · obtain rfl := mem_singleton.1 ht
    exact .inl ⟨hnone, hroot.2 ▸ hf⟩
  · rw [hstack] at hperm hsub
    exact .inr ⟨res, he, hv, hperm, hsub⟩

/-- **A lookup finds the rules that match**, each as often as it is in the tree, by priority.  The
program stops only at a field of the tree or a rule in it. -/
theorem lookup_spec (hroot : IsNode root) (h : Ready F q root) :
    (lookup q root = none ∧ ((∃ f ∈ fields root, q.values f = none) ∨
      ∃ r ∈ root.rules, q.matchesRule r.id r.expr = none)) ∨
    ∃ l, lookup q root = some l ∧ l.Perm (root.rules.filter (hit q)) ∧ Sorted l := by
  unfold lookup
  rcases getRules_spec hroot h with ⟨hnone, hf⟩ | ⟨res, he, hv, hperm, hsub⟩
  · exact .inl ⟨by rw [hnone]; rfl, .inl hf⟩
  rw [he, Option.bind_some]
  rcases CnodeResult.drain_spec hv (lt_succ_self _) with ⟨hnone, r, hr, hr'⟩ | ⟨l, hl, hl', hs⟩
  · exact .inl ⟨hnone, .inr ⟨r, hsub hr, hr'⟩⟩
  · exact .inr ⟨l, hl, hl'.trans hperm, hs⟩

end Walk

end NoxClassic.Classifier
