/-
# Groups of the data cache

The groups of a principal, the principals of a group, and what a batch of changes
reports.  Both recursions are walks over a graph that keep what they have met
(`Lib.enter`), so each ends and finds what can be reached (`getGroups_spec`,
`getAllGroupMembers_spec`).

The set `processed` is shared by all changes of a batch, between which the graph
changes.  It stays closed all the same (`Tracked`): a change of the members of a
group adds the member it is about to the sets, so what is outside has had the same
parents from the first change on, and none of them is inside.
-/

import NoxClassic.DataCache.Model
import NoxClassic.Lib.Closure

namespace NoxClassic.DataCache.Groups

open Function List Option Relation Lib AList

variable {d : Datatypes} {g g₀ g' : Groups} {m m' : ModifiedState} {id q : ℤ} {p : Principal}

/-- The pairs of the memberships. -/
def pairs (g : Groups) : List Membership := g.memberships.entries.map Sigma.snd

/-- **The three maps agree**: `parents` and `members` hold every pair as often as
`memberships` does. -/
structure Sound (g : Groups) : Prop where
  parents : ∀ q p, (g.parents p).count q = g.pairs.count ⟨q, p⟩
  members : ∀ q p, (g.members q).count p = g.pairs.count ⟨q, p⟩

/-- `memberships` as a function of the id. -/
def table (g : Groups) (id : ℤ) : Option Membership := g.memberships.lookup id

/-- By the memberships `t`, the group `q` contains a principal, directly or through a chain of
groups. -/
inductive Contains (d : Datatypes) (t : ℤ → Option Membership) (q : ℤ) : Principal → Prop
  | direct {p : Principal} (id : ℤ) (h : t id = some ⟨q, p⟩) : Contains d t q p
  | chain {p : Principal} {q' : ℤ} (id : ℤ) (h : t id = some ⟨q', p⟩)
      (hq : Contains d t q ⟨d.groupType, q'⟩) : Contains d t q p

theorem mem_pairs : ⟨q, p⟩ ∈ g.pairs ↔ ∃ id, g.memberships.lookup id = some ⟨q, p⟩ := by
  constructor
  · intro h
    obtain ⟨⟨id, ms⟩, he, rfl⟩ := mem_map.1 h
    exact ⟨id, mem_lookup_iff.2 he⟩
  · rintro ⟨id, h⟩
    exact mem_map.2 ⟨⟨id, ⟨q, p⟩⟩, mem_lookup_iff.1 h, rfl⟩

theorem Sound.mem_parents (h : Sound g) :
    q ∈ g.parents p ↔ ∃ id, g.memberships.lookup id = some ⟨q, p⟩ := by
  rw [← mem_pairs, ← count_pos_iff, h.parents, count_pos_iff]

theorem Sound.mem_members (h : Sound g) :
    p ∈ g.members q ↔ ∃ id, g.memberships.lookup id = some ⟨q, p⟩ := by
  rw [← mem_pairs, ← count_pos_iff, h.members, count_pos_iff]

/-! ### Up and down -/

/-- The groups a group is in. -/
def up (d : Datatypes) (g : Groups) (q : ℤ) : List ℤ := g.parents ⟨d.groupType, q⟩

/-- The members of a principal, if it is a group. -/
def below (d : Datatypes) (g : Groups) (p : Principal) : List Principal :=
  if p.type = d.groupType then g.members p.id else []

theorem Sound.contains_iff_up (h : Sound g) :
    Contains d g.table q p ↔ ∃ r ∈ g.parents p, ReflTransGen (fun a b => b ∈ g.up d a) r q := by
  constructor
  · intro hc
    induction hc with
    | direct id hl => exact ⟨q, h.mem_parents.2 ⟨id, hl⟩, .refl⟩
    | chain id hl _ ih =>
      obtain ⟨r, hr, hrq⟩ := ih
      exact ⟨_, h.mem_parents.2 ⟨id, hl⟩, hrq.head hr⟩
  · rintro ⟨r, hr, hrq⟩
    induction hrq using ReflTransGen.head_induction_on generalizing p with
        obtain ⟨id, hl⟩ := h.mem_parents.1 hr
    | refl => exact .direct id hl
    | head hac _ ih => exact .chain id hl (ih hac)

theorem Sound.contains_iff_below (h : Sound g) :
    Contains d g.table q p ↔ TransGen (fun a b => b ∈ g.below d a) ⟨d.groupType, q⟩ p := by
  have hbelow (q : ℤ) (p : Principal) : p ∈ g.below d ⟨d.groupType, q⟩ ↔
      ∃ id, g.memberships.lookup id = some ⟨q, p⟩ := by simp [below, h.mem_members]
  constructor
  · intro hc
    induction hc with
    | direct id hl => exact .single ((hbelow q _).2 ⟨id, hl⟩)
    | chain id hl _ ih => exact ih.tail ((hbelow _ _).2 ⟨id, hl⟩)
  · intro ht
    induction ht with
    | single hp =>
      obtain ⟨id, hl⟩ := (hbelow q _).1 hp
      exact .direct id hl
    | @tail b p _ hp ih =>
      have hb : b = ⟨d.groupType, b.id⟩ := by
        obtain ⟨type, id⟩ := b
        by_cases htype : type = d.groupType
        · rw [htype]
        · simp [below, htype] at hp
      rw [hb] at hp ih
      obtain ⟨id, hl⟩ := (hbelow _ _).1 hp
      exact .chain id hl ih

/-! ### The walks -/

variable {a : ℤ} {l : List ℤ} {ms : Membership}

theorem mem_addGroup {x : ℤ} : x ∈ (addGroup a l).2 ↔ x = a ∨ x ∈ l := by
  induction l with
  | nil => simp [addGroup]
  | cons b l ih => grind [addGroup]

theorem sorted_addGroup (h : l.Pairwise (· < ·)) : (addGroup a l).2.Pairwise (· < ·) := by
  induction l with
  | nil => simp [addGroup]
  | cons b l ih =>
    obtain ⟨hb, hl⟩ := pairwise_cons.1 h
    rw [addGroup]
    split_ifs with hlt heq
    · exact pairwise_cons.2 ⟨by grind, h⟩
    · exact h
    · refine pairwise_cons.2 ⟨fun x hx => ?_, ih hl⟩
      rcases mem_addGroup.1 hx with rfl | hx
      · omega
      · exact hb x hx

theorem addGroup_fst (h : l.Pairwise (· < ·)) : (addGroup a l).1 = true ↔ a ∉ l := by
  induction l with
  | nil => simp [addGroup]
  | cons b l ih =>
    obtain ⟨hb, hl⟩ := pairwise_cons.1 h
    grind [addGroup]

/-- `add_group` as a mark. -/
def markGroup (l : List ℤ) (a : ℤ) : Option (List ℤ) :=
  if (addGroup a l).1 then some (addGroup a l).2 else none

theorem marks_group (next : ℤ → List ℤ) :
    Marks next markGroup (fun l => {a | a ∈ l}) (·.Pairwise (· < ·)) where
  keep hs h := by
    obtain rfl := some.inj (ite_none_right_eq_some.1 h).2
    exact sorted_addGroup hs
  known hs h := by simpa [markGroup, addGroup_fst hs] using h
  insert _ h := by
    obtain rfl := some.inj (ite_none_right_eq_some.1 h).2
    ext x
    simp [mem_addGroup]
  fresh hs h := .inl ((addGroup_fst hs).1 (ite_none_right_eq_some.1 h).1)

/-- The principals in the sets of a batch. -/
def seen (d : Datatypes) (m : Reached) : Set Principal :=
  {p | if p.type = d.groupType then p.id ∈ m.processed else p ∈ m.principals}

/-- What `add_members` does to the sets before it goes on. -/
def markMember (d : Datatypes) (m : Reached) (p : Principal) : Option Reached :=
  if p.type ≠ d.groupType then some { m with principals := insert p m.principals }
  else if p.id ∈ m.processed then none
  else some { m with processed := insert p.id m.processed }

theorem marks_member {I : Reached → Prop}
    (hI : ∀ {m p m'}, I m → markMember d m p = some m' → I m') :
    Marks (g.below d) (markMember d) (seen d) I where
  keep := hI
  known _ h := by grind [markMember, seen]
  insert := by
    intro m p m' _ h
    ext ⟨type, id⟩
    obtain ⟨ptype, pid⟩ := p
    simp only [markMember] at h
    split_ifs at h with h1 h2 <;> obtain rfl := some.inj h <;>
      by_cases htype : type = d.groupType <;> grind [seen]
  fresh _ h := by grind [markMember, seen, below]

theorem addParentFrom_eq (n : ℕ) : g.addParentFrom d n = enter (g.up d) markGroup n := by
  induction n with
  | zero => rfl
  | succ n ih =>
    funext l a
    rw [addParentFrom, enter, ih, markGroup]
    split <;> rfl

theorem addMembersFrom_eq (n : ℕ) :
    g.addMembersFrom d n = enter (g.below d) (markMember d) n := by
  induction n with
  | zero => rfl
  | succ n ih =>
    funext m p
    rw [addMembersFrom, enter, ih, markMember]
    split_ifs with h1 h2
    · simp [below, h1]
    · rfl
    · simp [below, not_not.1 h1]

/-- The bound leaves a level for every group there is. -/
theorem ncard_lt_depth {α : Type*} [DecidableEq α] (f : Membership → α) (S : Set α) :
    (↑(g.pairs.map f).toFinset \ S).ncard < g.depth := by
  have h1 := Set.ncard_le_ncard (Set.sdiff_subset (s := ↑(g.pairs.map f).toFinset) (t := S))
  have h2 := (g.pairs.map f).toFinset_card_le
  rw [Set.ncard_coe_finset] at h1
  simp only [length_map, pairs] at h1 h2
  exact Nat.lt_succ_of_le (h1.trans h2)

/-- **The walk upwards** from a list of groups. -/
theorem Sound.run_addParentFrom (h : Sound g) (roots : List ℤ) :
    ∃ l, run (g.addParentFrom d g.depth) [] roots = some l ∧ l.Pairwise (· < ·) ∧
      ∀ q, q ∈ l ↔ ∃ r ∈ roots, ReflTransGen (fun a b => b ∈ g.up d a) r q := by
  have hm := marks_group (g.up d)
  rw [addParentFrom_eq]
  have hV (a : ℤ) (ha : g.up d a ≠ []) : a ∈ (g.pairs.map (·.principal.id)).toFinset := by
    obtain ⟨q, hq⟩ := exists_mem_of_ne_nil _ ha
    rw [List.mem_toFinset, List.mem_map]
    exact ⟨_, mem_pairs.2 (h.mem_parents.1 hq), rfl⟩
  obtain ⟨l, hl⟩ := exists_run_enter hm _ hV List.Pairwise.nil
    (ncard_lt_depth (·.principal.id) {a | a ∈ []}) roots
  obtain ⟨hsorted, hc⟩ := closure_run_enter hm List.Pairwise.nil hl
  refine ⟨l, hl, hsorted, fun q => ?_⟩
  have hempty : {a : ℤ | a ∈ []} = ∅ := by simp
  rw [hempty] at hc
  exact hc.mem_iff

/-- **The groups of a principal**: those that contain it, in order. -/
theorem Sound.getGroups_spec (h : Sound g) (p : Principal) :
    ∃ l, g.getGroups d p = some l ∧ l.Pairwise (· < ·) ∧
      ∀ q, q ∈ l ↔ Contains d g.table q p := by
  obtain ⟨l, hl, hsorted, hmem⟩ := h.run_addParentFrom (d := d) (g.parents p)
  exact ⟨l, hl, hsorted, fun q => (hmem q).trans h.contains_iff_up.symm⟩

/-- The groups of several address principals. -/
theorem Sound.run_addParents (h : Sound g) (ids : List ℤ) :
    ∃ l, run (fun l id => g.addParents d l ⟨d.addressType, id⟩) [] ids = some l ∧
      l.Pairwise (· < ·) ∧ ∀ q, q ∈ l ↔ ∃ id ∈ ids, Contains d g.table q ⟨d.addressType, id⟩ := by
  obtain ⟨l, hl, hsorted, hmem⟩ :=
    h.run_addParentFrom (d := d) (ids.flatMap fun id => g.parents ⟨d.addressType, id⟩)
  rw [run_flatMap] at hl
  refine ⟨l, hl, hsorted, fun q => (hmem q).trans ?_⟩
  simp only [h.contains_iff_up, mem_flatMap]
  constructor
  · rintro ⟨r, ⟨id, hid, hr⟩, hrq⟩
    exact ⟨id, hid, r, hr, hrq⟩
  · rintro ⟨id, hid, r, hr, hrq⟩
    exact ⟨r, ⟨id, hid, hr⟩, hrq⟩


/-- None of the principals is a group. -/
def Plain (d : Datatypes) (m : Reached) : Prop := ∀ p ∈ m.principals, p.type ≠ d.groupType

/-- **The walk downwards**, which needs that `members` names pairs only. -/
theorem addMembers_spec (hb : ∀ q, ∀ p ∈ g.members q, ⟨q, p⟩ ∈ g.pairs) (m : ModifiedState)
    (p : Principal) : ∃ r, g.addMembers d p m = some { m with toReached := r } ∧
      (Plain d m.toReached → Plain d r) ∧
        Closure (g.below d) [p] (seen d m.toReached) (seen d r) := by
  have hm : Marks (g.below d) (markMember d) (seen d)
      fun r => Plain d m.toReached → Plain d r :=
    marks_member fun hI h hm => by
      grind [markMember, Plain]
  have hV (a : Principal) (ha : g.below d a ≠ []) :
      a ∈ (g.pairs.map fun ms => Principal.mk d.groupType ms.group).toFinset := by
    obtain ⟨type, id⟩ := a
    obtain ⟨b, hmem⟩ := exists_mem_of_ne_nil _ ha
    by_cases htype : type = d.groupType
    · rw [below, if_pos htype] at hmem
      rw [List.mem_toFinset, List.mem_map]
      exact ⟨⟨id, b⟩, hb id b hmem, by rw [htype]⟩
    · simp [below, htype] at ha
  have hlt := ncard_lt_depth (g := g) (fun ms => Principal.mk d.groupType ms.group)
    (seen d m.toReached)
  obtain ⟨r, hr⟩ := exists_run_enter hm _ hV id hlt [p]
  obtain ⟨hplain, hc⟩ := closure_run_enter hm id hr
  refine ⟨r, ?_, hplain, hc⟩
  have hr' : enter (g.below d) (markMember d) g.depth m.toReached p = some r := by
    simpa using hr
  rw [addMembers, addMembersFrom_eq, hr', map_some]

theorem Sound.bounded (h : Sound g) (q : ℤ) (p : Principal) (hp : p ∈ g.members q) :
    ⟨q, p⟩ ∈ g.pairs := mem_pairs.2 (h.mem_members.1 hp)

/-- **The principals of groups**: those that are not groups and that one of them contains. -/
theorem Sound.getAllGroupMembers_spec (h : Sound g) (qs : List ℤ) :
    ∃ ps, g.getAllGroupMembers d qs = some ps ∧
      ∀ p, p ∈ ps ↔ p.type ≠ d.groupType ∧ ∃ q ∈ qs, Contains d g.table q p := by
  have hrun (m : ModifiedState) :
      ∃ m', run (fun m q => g.addMembers d ⟨d.groupType, q⟩ m) m qs = some m' ∧
        (Plain d m.toReached → Plain d m'.toReached) ∧
          Closure (g.below d) (qs.map (⟨d.groupType, ·⟩)) (seen d m.toReached)
            (seen d m'.toReached) := by
    induction qs generalizing m with
    | nil => exact ⟨m, rfl, fun h => h, .nil _⟩
    | cons q qs ih =>
      obtain ⟨r, hr, hp, hc⟩ := addMembers_spec (d := d) h.bounded m ⟨d.groupType, q⟩
      obtain ⟨m', hm', hp', hc'⟩ := ih { m with toReached := r }
      exact ⟨m', by rw [run_cons, hr]; exact hm', fun h => hp' (hp h), hc.cons hc'⟩
  obtain ⟨m, hm, hplain, hc⟩ := hrun .empty
  have hempty : seen d ModifiedState.empty.toReached = ∅ := by
    simp [seen, ModifiedState.empty]
  rw [hempty] at hc
  refine ⟨m.principals, by rw [getAllGroupMembers, hm]; rfl, fun p => ?_⟩
  by_cases hp : p.type = d.groupType
  · have hnot := hplain (by simp [Plain, ModifiedState.empty]) p
    tauto
  have hseen : p ∈ m.principals ↔ p ∈ seen d m.toReached := by simp [seen, hp]
  rw [hseen, hc.mem_iff]
  constructor
  · rintro ⟨r, hr, hrp⟩
    obtain ⟨q, hq, rfl⟩ := mem_map.1 hr
    rcases reflTransGen_iff_eq_or_transGen.1 hrp with rfl | ht
    · exact absurd rfl hp
    · exact ⟨hp, q, hq, h.contains_iff_below.2 ht⟩
  · rintro ⟨-, q, hq, hqp⟩
    exact ⟨_, mem_map.2 ⟨q, hq, rfl⟩, (h.contains_iff_below.1 hqp).to_reflTransGen⟩

/-! ### Batches of changes -/

/-- A change of the memberships. -/
inductive Change where
  | update (id group : ℤ) (principal : Principal)
  | delete (id : ℤ)

/-- The memberships after a change: an update puts its pair in the place of the one with the
same id, a deletion leaves none there. -/
def Change.apply (t : ℤ → Option Membership) : Change → ℤ → Option Membership
  | .update id group principal => Function.update t id (some ⟨group, principal⟩)
  | .delete id => Function.update t id none

/-- The memberships that changes leave. -/
def applyAll (t : ℤ → Option Membership) (changes : List Change) : ℤ → Option Membership :=
  changes.foldl Change.apply t

/-- One change of a batch. -/
def change (d : Datatypes) (s : Groups × ModifiedState) : Change → Option (Groups × ModifiedState)
  | .update id group principal => s.1.updateGroupMember d id group principal s.2
  | .delete id => s.1.deleteGroupMember d id s.2

/-- A batch of changes, with a `ModifiedState` of its own. -/
def batch (d : Datatypes) (g : Groups) (changes : List Change) : Option Groups :=
  (run (change d) (g, .empty) changes).map Prod.fst

/-- **What a batch knows of the graph it began with**, `g₀`: the sets are closed under
members, and what is outside of them is as it was. -/
structure Tracked (d : Datatypes) (g₀ g : Groups) (m : ModifiedState) : Prop where
  closed : ∀ q ∈ m.processed, ∀ p ∈ g.members q, p ∈ seen d m.toReached
  parents : ∀ p, p ∉ seen d m.toReached → g.parents p = g₀.parents p
  members : ∀ q, q ∉ m.groups → g.members q = g₀.members q

/-- A change of the members of `q` by `p`, which `add_members` is then called for. -/
theorem Tracked.changed {r : Reached} (h : Tracked d g₀ g m)
    (hmem : ∀ q, ∀ p' ∈ g'.members q, p' ∈ g.members q ∨ p' = p)
    (hne : ∀ q', q' ≠ q → g'.members q' = g.members q')
    (hparents : ∀ p', p' ≠ p → g'.parents p' = g.parents p')
    (hc : Closure (g'.below d) [p] (seen d m.toReached) (seen d r)) :
    Tracked d g₀ g' ⟨r, insert q m.groups⟩ where
  closed := by
    intro q' hq' p' hp'
    by_cases hold : q' ∈ m.processed
    · rcases hmem q' p' hp' with hp | rfl
      · exact hc.mono (h.closed q' hold p' hp)
      · exact hc.root p' mem_cons_self
    · exact hc.closed ⟨d.groupType, q'⟩ (by simpa [seen] using hq') (by simpa [seen] using hold) p'
        (by simpa [below] using hp')
  parents := by
    intro p' hp'
    rw [hparents p' fun heq => hp' (heq ▸ hc.root p mem_cons_self)]
    exact h.parents p' fun hin => hp' (hc.mono hin)
  members := by
    intro q' hq'
    simp only [Finset.mem_insert, not_or] at hq'
    rw [hne q' hq'.1, h.members q' hq'.2]

/-- What a change keeps. -/
def Kept (d : Datatypes) (g : Groups) (m : ModifiedState) (g' : Groups) (m' : ModifiedState) :
    Prop := Sound g' ∧ ∀ g₀, Tracked d g₀ g m → Tracked d g₀ g' m'

theorem pairs_of_lookup (h : g.memberships.lookup id = some ms) :
    g.pairs.Perm (ms :: (g.memberships.erase id).entries.map Sigma.snd) := by
  have hmem := mem_lookup_iff.1 h
  obtain ⟨ms', l1, l2, -, heq, herase⟩ := exists_of_kerase (mem_keys_of_mem hmem)
  have hms : ms = ms' := g.memberships.nodupKeys.eq_of_mk_mem hmem (by simp [heq])
  have h2 : (g.memberships.erase id).entries = l1 ++ l2 := herase
  rw [pairs, h2, heq, hms]
  simp

theorem Sound.unlink (h : Sound g) (hl : g.memberships.lookup id = some ms) :
    Sound { g.unlink ms with memberships := g.memberships.erase id } := by
  obtain ⟨q', p'⟩ := ms
  constructor <;> intro q p <;> have hcount := (pairs_of_lookup hl).count_eq ⟨q, p⟩
  · rw [← h.parents, count_cons] at hcount
    simp only [Groups.unlink, update_apply, pairs]
    grind
  · rw [← h.members, count_cons] at hcount
    simp only [Groups.unlink, update_apply, pairs]
    grind

theorem Sound.link (h : Sound g) (hid : id ∉ g.memberships) :
    Sound { g.link ms with memberships := g.memberships.insert id ms } := by
  obtain ⟨q', p'⟩ := ms
  have hpairs : (g.memberships.insert id ⟨q', p'⟩).entries.map Sigma.snd = ⟨q', p'⟩ :: g.pairs := by
    rw [pairs, ← kerase_of_notMem_keys hid]
    rfl
  constructor <;> intro q p
  · have hcount := h.parents q p
    rw [pairs, hpairs]
    simp only [Groups.link, update_apply]
    grind
  · have hcount := h.members q p
    rw [pairs, hpairs]
    simp only [Groups.link, update_apply]
    grind

theorem removeGroupMember_spec (h : Sound g) (id q : ℤ) (p : Principal) (deleted : Bool)
    (m : ModifiedState) : ∃ add g' m',
      g.removeGroupMember d id q p deleted m = some (add, g', m') ∧ Kept d g m g' m' ∧
        (deleted = true → add = true) ∧
          g'.table = update g.table id (if add then none else some ⟨q, p⟩) := by
  unfold removeGroupMember
  split
  · rename_i hl
    exact ⟨true, g, m, rfl, ⟨h, fun _ ht => ht⟩, fun _ => rfl, by simp [table, hl]⟩
  rename_i old hl
  split_ifs with hsame
  · -- the pair that is asked for is the one that is there
    simp only [Bool.and_eq_true, Bool.not_eq_true', decide_eq_true_eq] at hsame
    obtain ⟨⟨hdel, rfl⟩, rfl⟩ := hsame
    exact ⟨false, g, m, rfl, ⟨h, fun _ ht => ht⟩, by simp [hdel], by simp [← hl, table]⟩
  have hmem (q : ℤ) (p : Principal) (hp : p ∈ (g.unlink old).members q) :
      p ∈ g.members q := by
    simp only [unlink, update_apply] at hp
    split_ifs at hp with heq
    · exact heq ▸ mem_of_mem_erase hp
    · exact hp
  obtain ⟨r, hr, -, hc⟩ := addMembers_spec (d := d) (g := g.unlink old)
    (fun q p hp => h.bounded q p (hmem q p hp)) m old.principal
  refine ⟨true, { g.unlink old with memberships := g.memberships.erase id },
    ⟨r, insert old.group m.groups⟩, by rw [hr]; rfl, ⟨h.unlink hl, fun g₀ ht => ?_⟩,
    fun _ => rfl, ?_⟩
  · exact ht.changed (fun q p hp => .inl (hmem q p hp))
      (fun q hq => update_of_ne hq _ _) (fun p hp => update_of_ne hp _ _) hc
  · ext1 i
    obtain rfl | hi := eq_or_ne i id
    · simp [table]
    · simp [table, hi]

theorem updateGroupMember_spec (h : Sound g) (id q : ℤ) (p : Principal) (m : ModifiedState) :
    ∃ g' m', g.updateGroupMember d id q p m = some (g', m') ∧ Kept d g m g' m' ∧
      g'.table = update g.table id (some ⟨q, p⟩) := by
  obtain ⟨add, g1, m1, hr, hk, -, htable⟩ := removeGroupMember_spec (d := d) h id q p false m
  rw [updateGroupMember, hr, bind_some]
  cases add with
  | false => exact ⟨g1, m1, rfl, hk, htable⟩
  | true =>
    have hid : id ∉ g1.memberships := lookup_eq_none.1 (by
      simpa [table] using congrFun htable id)
    have hs : Sound { g1.link ⟨q, p⟩ with memberships := g1.memberships.insert id ⟨q, p⟩ } :=
      hk.1.link hid
    obtain ⟨r, hr, -, hc⟩ := addMembers_spec (d := d) hs.bounded m1 p
    refine ⟨{ g1.link ⟨q, p⟩ with memberships := g1.memberships.insert id ⟨q, p⟩ },
      ⟨r, insert q m1.groups⟩, by simp [hr], ⟨hs, fun g₀ ht => ?_⟩, ?_⟩
    · refine (hk.2 g₀ ht).changed (fun q' p' hp' => ?_) (fun q' hq' => update_of_ne hq' _ _)
        (fun p' hp' => update_of_ne hp' _ _) hc
      simp only [Groups.link, update_apply] at hp'
      grind
    · ext1 i
      have hold := congrFun htable i
      obtain rfl | hi := eq_or_ne i id
      · simp [table]
      · simpa [table, hi] using hold

/-- **A batch of changes goes through**, and leaves the memberships its calls say. -/
theorem exists_run_change (h : Sound g) (m : ModifiedState) (changes : List Change) :
    ∃ g' m', run (change d) (g, m) changes = some (g', m') ∧ Kept d g m g' m' ∧
      g'.table = applyAll g.table changes := by
  induction changes generalizing g m with
  | nil => exact ⟨g, m, rfl, ⟨h, fun _ ht => ht⟩, rfl⟩
  | cons c changes ih =>
    have hstep : ∃ g' m', change d (g, m) c = some (g', m') ∧ Kept d g m g' m' ∧
        g'.table = c.apply g.table := by
      cases c with
      | update id q p => exact updateGroupMember_spec h id q p m
      | delete id =>
        obtain ⟨add, g', m', hr, hk, hadd, htable⟩ :=
          removeGroupMember_spec (d := d) h id 0 ⟨0, 0⟩ true m
        rw [hadd rfl] at htable
        exact ⟨g', m', by simp [change, deleteGroupMember, hr], hk, htable⟩
    obtain ⟨g1, m1, h1, ⟨hs1, ht1⟩, htable1⟩ := hstep
    obtain ⟨g2, m2, h2, ⟨hs2, ht2⟩, htable2⟩ := ih hs1 m1
    exact ⟨g2, m2, by rw [run_cons, h1]; exact h2, ⟨hs2, fun g₀ ht => ht2 g₀ (ht1 g₀ ht)⟩,
      by rw [htable2, htable1]; rfl⟩

theorem sound_empty : Sound .empty := ⟨fun _ _ => rfl, fun _ _ => rfl⟩

theorem exists_run_batch (h : Sound g) (batches : List (List Change)) :
    ∃ g', run (batch d) g batches = some g' ∧ Sound g' ∧
      g'.table = applyAll g.table batches.flatten := by
  induction batches generalizing g with
  | nil => exact ⟨g, rfl, h, rfl⟩
  | cons changes batches ih =>
    obtain ⟨g1, m1, h1, ⟨hs1, -⟩, htable1⟩ := exists_run_change (d := d) h .empty changes
    obtain ⟨g2, h2, hs2, htable2⟩ := ih hs1
    refine ⟨g2, by rw [run_cons, batch, h1]; exact h2, hs2, ?_⟩
    rw [htable2, htable1, flatten_cons, applyAll, applyAll, applyAll, foldl_append]

/-- **Transitive membership.**  After any changes, whatever the address tables hold, each of the
queries returns: by the memberships these changes leave, the groups of a principal, of an Ethernet
address and of an IP address are those that contain it, or an address principal that matches, in
strictly increasing order, and the members of groups are the principals other than groups that
these contain. -/
theorem groups_of_batches (d : Datatypes) (batches : List (List Change)) (a : Addresses) :
    ∃ g t, run (batch d) .empty batches = some g ∧
      t = applyAll (fun _ => none) batches.flatten ∧
      (∀ p, ∃ l, g.getGroups d p = some l ∧ l.Pairwise (· < ·) ∧ ∀ q, q ∈ l ↔ Contains d t q p) ∧
      (∀ dladdr, ∃ l, a.getGroupsDl d g dladdr = some l ∧ l.Pairwise (· < ·) ∧
        ∀ q, q ∈ l ↔ ∃ id ∈ a.dladdrToId dladdr, Contains d t q ⟨d.addressType, id⟩) ∧
      (∀ nwaddr, ∃ l, a.getGroupsNw d g nwaddr = some l ∧ l.Pairwise (· < ·) ∧
        ∀ q, q ∈ l ↔ ∃ id, (id ∈ a.nwaddrToId nwaddr ∨
          ∃ c, a.idToCidr.lookup id = some c ∧ c.matches nwaddr = true) ∧
            Contains d t q ⟨d.addressType, id⟩) ∧
      ∀ qs, ∃ ps, g.getAllGroupMembers d qs = some ps ∧
        ∀ p, p ∈ ps ↔ p.type ≠ d.groupType ∧ ∃ q ∈ qs, Contains d t q p := by
  obtain ⟨g, hg, h, htable⟩ := exists_run_batch (d := d) sound_empty batches
  refine ⟨g, g.table, hg, htable, h.getGroups_spec, fun dladdr => h.run_addParents _,
    fun nwaddr => ?_, h.getAllGroupMembers_spec⟩
  -- the loop over the CIDRs goes on where the loop over the single addresses ended
  obtain ⟨l, hl, hsorted, hmem⟩ := h.run_addParents (d := d) (a.nwaddrToId nwaddr ++
    (a.idToCidr.entries.filter fun c => c.2.matches nwaddr).map Sigma.fst)
  refine ⟨l, ?_, hsorted, fun q => (hmem q).trans (exists_congr fun id => and_congr_left' ?_)⟩
  · rw [run_append] at hl
    rw [Addresses.getGroupsNw]
    simpa only [run_map_filter] using hl
  · simp only [List.mem_append, List.mem_map, List.mem_filter, ← Option.mem_def,
      mem_lookup_iff]
    constructor
    · rintro (hid | ⟨⟨id, c⟩, hc, rfl⟩)
      · exact .inl hid
      · exact .inr ⟨c, hc⟩
    · rintro (hid | ⟨c, hc⟩)
      · exact .inl hid
      · exact .inr ⟨⟨id, c⟩, hc, rfl⟩

/-- What is outside of the sets is in the same groups as before. -/
theorem Tracked.getGroups_eq (h : Tracked d g₀ g m) (hs0 : Sound g₀) (hs : Sound g)
    (hp : p ∉ seen d m.toReached) : g.getGroups d p = g₀.getGroups d p := by
  have hup (p : Principal) (hp : p ∉ seen d m.toReached) : g.parents p = g₀.parents p ∧
      ∀ q ∈ g.parents p, ⟨d.groupType, q⟩ ∉ seen d m.toReached := by
    refine ⟨h.parents p hp, fun q hq hin => hp (h.closed q (by simpa [seen] using hin) p ?_)⟩
    exact hs.mem_members.2 (hs.mem_parents.1 hq)
  obtain ⟨l, hl, hsorted, hmem⟩ := hs.getGroups_spec (d := d) p
  obtain ⟨l0, hl0, hsorted0, hmem0⟩ := hs0.getGroups_spec (d := d) p
  rw [hl, hl0, hsorted.eq_of_mem_iff hsorted0 fun q => ?_]
  rw [hmem, hmem0, hs.contains_iff_up, hs0.contains_iff_up, ← (hup p hp).1]
  -- a chain of parents that begins outside stays outside, where the two graphs agree
  refine exists_congr fun r => and_congr_right fun hr => ⟨fun hrq => ?_, fun hrq => ?_⟩
  · exact reach_congr (fun a ha => (hup ⟨_, a⟩ ha).1) (fun a ha => (hup ⟨_, a⟩ ha).2)
      ((hup p hp).2 r hr) hrq
  · exact reach_congr (fun a ha => (hup ⟨_, a⟩ ha).1.symm)
      (fun a ha b hb => (hup ⟨_, a⟩ ha).2 b ((hup ⟨_, a⟩ ha).1 ▸ hb)) ((hup p hp).2 r hr) hrq

/-- **Affected principals are never missed.**  After any changes, a batch of further ones
reports every principal other than a group whose groups have changed and every group whose
members have; and the maps agree. -/
theorem batch_reports (d : Datatypes) (batches : List (List Change)) (changes : List Change) :
    ∃ g₀ g m, run (batch d) .empty batches = some g₀ ∧
      run (change d) (g₀, .empty) changes = some (g, m) ∧ Sound g ∧
      (∀ p : Principal, p.type ≠ d.groupType → g.getGroups d p ≠ g₀.getGroups d p →
        p ∈ m.principals) ∧
      ∀ q, ¬ (g.members q).Perm (g₀.members q) → q ∈ m.groups := by
  obtain ⟨g₀, hg0, hs0, -⟩ := exists_run_batch (d := d) sound_empty batches
  obtain ⟨g, m, hg, ⟨hs, ht⟩, -⟩ := exists_run_change (d := d) hs0 .empty changes
  have ht := ht g₀ ⟨by simp [ModifiedState.empty], fun _ _ => rfl, fun _ _ => rfl⟩
  refine ⟨g₀, g, m, hg0, hg, hs, fun p hp hne => ?_, fun q hne => ?_⟩
  · by_contra hnot
    exact hne (ht.getGroups_eq hs0 hs (by simpa [seen, hp] using hnot))
  · by_contra hnot
    exact hne (ht.members q hnot ▸ List.Perm.refl _)

end NoxClassic.DataCache.Groups
