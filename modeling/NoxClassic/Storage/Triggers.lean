/-
# The removal of triggers

`remove_trigger` and the firing of triggers (`src/nox/netapps/storage/dht-impl.cc`).
Triggers are kept with a row, with an entry of an index ring or with the table
(`Place`); a change fires those of the places it touches, that is, posts their
functions and takes them out of the map unless they are sticky.  What a function of
the rings does to the maps is one of three things: it fires the triggers of some
places (`Fires`), installs a trigger, or removes one.

A removal that succeeds has taken the trigger out of its map, and every invocation
posted before comes before its completion in the queue.  This needs that
`remove_trigger`, which has only the name of the ring, finds the ring the trigger is
in.  Index rings are sought first, so a table that has the name of an index ring of
another one is not found (`removed_invoked`); as long as every ring that is created has a
name of its own among the rings that live or have messages waiting, removal is reliable
(`removal_reliable`).
-/

import NoxClassic.Storage.Store
import NoxClassic.Storage.View

namespace NoxClassic.Storage

open Function List Option Rings TriggerId Prod

open Lib (OrdMap)

/-! ### Maps of triggers -/

/-- Ids of one ring and one reference are in order of their numbers. -/
theorem TriggerId.less_of_same {t t' : TriggerId} (hring : t.ring = t'.ring)
    (href : t.ref = t'.ref) : t.less t' = decide (t.tid < t'.tid) := by
  unfold less
  simp [hring, href, Reference.less, Reference.matches_self]

/-- The ids in a map are in order, of one kind, of one ring and of one reference. -/
structure Family (forTable : Bool) (ring : String) (ref : Reference) (ts : TriggerMap ℕ) :
    Prop where
  sorted : ts.Pairwise fun t t' => t.1.tid < t'.1.tid
  same : ∀ t ∈ ts, t.1.forTable = forTable ∧ t.1.ring = ring ∧ t.1.ref = ref

variable {ts' : TriggerMap ℕ} {tid : TriggerId} {m : Msg} {reason : TriggerReason} {c : ℕ}

section Family

variable {forTable : Bool} {ring : String} {ref : Reference} {ts : TriggerMap ℕ} {n : ℤ} {f : ℕ}

theorem Family.nil : Family forTable ring ref [] :=
  ⟨Pairwise.nil, nofun⟩

theorem Family.sublist (h : Family forTable ring ref ts)
    (hs : ts'.Sublist ts) : Family forTable ring ref ts' :=
  ⟨h.sorted.sublist hs, fun t ht => h.same t (hs.subset ht)⟩

variable {t : TriggerId × ℕ}

theorem Family.of_cons (h : Family forTable ring ref (t :: ts)) : Family forTable ring ref ts :=
  h.sublist (sublist_cons_self t ts)

/-- The comparison with an id of the family is that of the numbers. -/
theorem Family.less (h : Family forTable ring ref ts) (ht : t ∈ ts) :
    t.1.less ⟨forTable, ring, ref, n⟩ = decide (t.1.tid < n) ∧
      less ⟨forTable, ring, ref, n⟩ t.1 = decide (n < t.1.tid) := by
  obtain ⟨-, hring, href⟩ := h.same t ht
  exact ⟨less_of_same hring href, less_of_same hring.symm href.symm⟩

theorem eraseBy_sublist {κ ν : Type*} (less : κ → κ → Bool) (k : κ) (es : List (κ × ν)) :
    (eraseBy less k es).Sublist es := by
  induction es with
  | nil => exact Sublist.refl _
  | cons e es ih =>
    unfold eraseBy
    split_ifs
    · exact ih.cons_cons e
    · exact Sublist.refl _
    · exact sublist_cons_self e es

section

variable (h : Family forTable ring ref ts)
include h

/-- An id that is taken out is not there any more. -/
theorem Family.not_mem_eraseBy :
    (⟨forTable, ring, ref, n⟩, f) ∉ eraseBy TriggerId.less ⟨forTable, ring, ref, n⟩ ts := by
  induction ts with
  | nil => exact not_mem_nil
  | cons t ts ih =>
    have hrest : ∀ t' ∈ ts, t.1.tid < t'.1.tid := (pairwise_cons.1 h.sorted).1
    obtain ⟨hlt, hgt⟩ := h.less (n := n) mem_cons_self
    have htid : (⟨⟨forTable, ring, ref, n⟩, f⟩ : TriggerId × ℕ) = t → n = t.1.tid :=
      fun heq => congrArg (fun x : TriggerId × ℕ => x.1.tid) heq
    unfold eraseBy
    rw [hlt, hgt]
    split_ifs with h1 h2
    · rw [mem_cons, not_or]
      refine ⟨fun heq => ?_, ih h.of_cons⟩
      have := of_decide_eq_true h1
      have := htid heq
      omega
    · rw [mem_cons, not_or]
      have := of_decide_eq_true h2
      refine ⟨fun heq => ?_, fun hmem => ?_⟩
      · have := htid heq
        omega
      · have : t.1.tid < n := hrest _ hmem
        omega
    · intro hmem
      exact h1 (decide_eq_true (hrest _ hmem))

theorem Family.not_mem_erased (tid : TriggerId) :
    (tid, f) ∉ eraseBy TriggerId.less tid ts := by
  intro hmem
  obtain ⟨rfl, rfl, rfl⟩ := h.same _ ((eraseBy_sublist _ _ ts).subset hmem)
  exact h.not_mem_eraseBy hmem

/-- An id of the family is put into the map. -/
theorem Family.setBy :
    Family forTable ring ref (setBy TriggerId.less ⟨forTable, ring, ref, n⟩ f ts) ∧
      ∀ t ∈ setBy TriggerId.less ⟨forTable, ring, ref, n⟩ f ts,
        t = (⟨forTable, ring, ref, n⟩, f) ∨ t ∈ ts := by
  induction ts with
  | nil =>
    refine ⟨⟨pairwise_singleton _ _, fun t ht => ?_⟩, fun t ht => .inl (mem_singleton.1 ht)⟩
    rw [mem_singleton.1 ht]
    exact ⟨rfl, rfl, rfl⟩
  | cons t ts ih =>
    have hrest : ∀ t' ∈ ts, t.1.tid < t'.1.tid := (pairwise_cons.1 h.sorted).1
    have hsame := h.same t mem_cons_self
    obtain ⟨hlt, hgt⟩ := h.less (n := n) mem_cons_self
    obtain ⟨ihf, ihm⟩ := ih h.of_cons
    unfold Storage.setBy
    rw [hlt, hgt]
    split_ifs with h1 h2
    · have hn := of_decide_eq_true h1
      refine ⟨⟨pairwise_cons.2 ⟨fun t' ht' => ?_, h.sorted⟩, fun t' ht' => ?_⟩,
        fun t' ht' => mem_cons.1 ht'⟩
      · rcases mem_cons.1 ht' with rfl | ht'
        · exact hn
        · exact hn.trans (hrest t' ht')
      · rcases mem_cons.1 ht' with rfl | ht'
        · exact ⟨rfl, rfl, rfl⟩
        · exact h.same t' ht'
    · have hn := of_decide_eq_true h2
      refine ⟨⟨pairwise_cons.2 ⟨fun t' ht' => ?_, ihf.sorted⟩, fun t' ht' => ?_⟩, fun t' ht' => ?_⟩
      · rcases ihm t' ht' with rfl | ht'
        · exact hn
        · exact hrest t' ht'
      · rcases mem_cons.1 ht' with rfl | ht'
        · exact hsame
        · exact ihf.same t' ht'
      · rcases mem_cons.1 ht' with rfl | ht'
        · exact .inr mem_cons_self
        · exact (ihm t' ht').imp_right (mem_cons_of_mem _)
    · -- the id is there already, and gets the new function
      have hn : t.1.tid = n := by
        have := mt (decide_eq_true (p := n < t.1.tid)) h1
        have := mt (decide_eq_true (p := t.1.tid < n)) h2
        omega
      have hid : t.1 = ⟨forTable, ring, ref, n⟩ := by
        obtain ⟨⟨ft, rg, rf, m⟩, g⟩ := t
        obtain ⟨rfl, rfl, rfl⟩ := hsame
        exact congrArg _ hn
      refine ⟨⟨pairwise_cons.2 ⟨hrest, (pairwise_cons.1 h.sorted).2⟩,
        fun t' ht' => ?_⟩, fun t' ht' => ?_⟩
      · rcases mem_cons.1 ht' with rfl | ht'
        · exact hsame
        · exact h.same t' (mem_cons_of_mem _ ht')
      · rcases mem_cons.1 ht' with rfl | ht'
        · exact .inl (Prod.ext hid rfl)
        · exact .inr (mem_cons_of_mem _ ht')

end

end Family

/-! ### What is kept at a place -/

/-- The GUID of an entry. -/
def Place.guid : Place → Option GUID
  | .content g => some g
  | .index _ g => some g
  | .sticky | .nonsticky => none

/-- Whether it is the table itself. -/
def Place.forTable : Place → Bool
  | .content _ | .index _ _ => false
  | .sticky | .nonsticky => true

/-- The name of its ring. -/
def Place.ring (t : Table) : Place → String
  | .index n _ => n
  | .content _ | .sticky | .nonsticky => t.name

/-- What is kept at a place: the reference in the ids of the triggers, and these. -/
def Rings.kept (s : Rings) : Place → Option (Reference × TriggerMap ℕ)
  | .content g => (s.content.find? g).map fun e => (e.id.toReference, e.nonstickyTriggers)
  | .index n g => ((s.indexDhts n).find? g).map fun e => (e.id, e.nonstickyTriggers)
  | .sticky => some (.any, s.stickyTableTriggers)
  | .nonsticky => some (.any, s.nonstickyTableTriggers)

/-- The triggers at a place. -/
def Rings.triggers (s : Rings) (p : Place) : TriggerMap ℕ := (s.kept p).elim [] Prod.snd

/-- The ids of triggers say where these are. -/
structure PlacedAt (t : Table) (p : Place) (r : Reference) (ts : TriggerMap ℕ) : Prop where
  guid : ∀ g, p.guid = some g → r.guid = g
  family : Family p.forTable (p.ring t) r ts
  index : ∀ n g, p = .index n g → ts ≠ [] → n ∈ t.indices

/-- The ids of all triggers do. -/
def Placed (t : Table) (s : Rings) : Prop :=
  ∀ p r ts, s.kept p = some (r, ts) → PlacedAt t p r ts

section Placed

variable {t : Table} {s s' : Rings} {p : Place} {r : Reference} {ts : TriggerMap ℕ}

theorem Rings.triggers_of_kept (h : s.kept p = some (r, ts)) : s.triggers p = ts := by
  unfold triggers
  rw [h]
  rfl

theorem PlacedAt.nil (h : ∀ g, p.guid = some g → r.guid = g) : PlacedAt t p r [] :=
  ⟨h, Family.nil, fun _ _ _ hne => absurd rfl hne⟩

theorem PlacedAt.sublist (h : PlacedAt t p r ts) (hs : ts'.Sublist ts) : PlacedAt t p r ts' := by
  refine ⟨h.guid, h.family.sublist hs, fun n g hp hne => h.index n g hp fun hnil => hne ?_⟩
  rw [hnil] at hs
  exact eq_nil_of_sublist_nil hs

theorem placed_initial : Placed t .initial := by
  intro p r ts hk
  cases p with
  | content | index => nomatch hk
  | sticky | nonsticky =>
    obtain ⟨rfl, rfl⟩ := mk.inj (some.inj hk)
    exact .nil nofun

theorem Placed.of_mem (h : Placed t s) {x : TriggerId × ℕ} (hx : x ∈ s.triggers p) :
    ∃ r, s.kept p = some (r, s.triggers p) ∧ PlacedAt t p r (s.triggers p) := by
  cases hk : s.kept p with
  | none =>
    unfold triggers at hx
    rw [hk] at hx
    nomatch hx
  | some y =>
    obtain ⟨r, ts⟩ := y
    rw [triggers_of_kept hk]
    exact ⟨r, rfl, h p r ts hk⟩

/-- The id of a trigger says where it is. -/
theorem Placed.id (h : Placed t s) {f : ℕ} (hx : (tid, f) ∈ s.triggers p) :
    tid.forTable = p.forTable ∧ tid.ring = p.ring t ∧ s.kept p = some (tid.ref, s.triggers p) ∧
      ∀ g, p.guid = some g → tid.ref.guid = g := by
  obtain ⟨r, hr, hat⟩ := h.of_mem hx
  obtain ⟨hft, hring, href⟩ := hat.family.same _ hx
  exact ⟨hft, hring, href ▸ hr, fun g hg => href ▸ hat.guid g hg⟩

/-- The triggers of a place have different ids. -/
theorem Placed.sorted (h : Placed t s) (p : Place) :
    (s.triggers p).Pairwise fun x y => x.1.tid < y.1.tid := by
  cases hts : s.triggers p with
  | nil => exact Pairwise.nil
  | cons x xs =>
    obtain ⟨r, -, hat⟩ := h.of_mem (hts ▸ mem_cons_self : x ∈ s.triggers p)
    exact hts ▸ hat.family.sorted

variable {new : Option (Reference × TriggerMap ℕ)}

/-- One place changes. -/
theorem Placed.update (h : Placed t s) (hs' : s'.kept = update s.kept p new)
    (hnew : ∀ r ts, new = some (r, ts) → PlacedAt t p r ts) : Placed t s' := by
  intro q r ts hq
  rw [hs'] at hq
  rw [update_apply] at hq
  split_ifs at hq with hqp
  · exact hqp ▸ hnew r ts hq
  · exact h q r ts hq

theorem Rings.triggers_update (hs' : s'.kept = update s.kept p new) :
    s'.triggers = update s.triggers p (new.elim [] Prod.snd) := by
  funext q
  unfold triggers
  rw [hs']
  rw [update_apply, update_apply]
  split_ifs <;> rfl

end Placed

section Views

variable (s : Rings)

@[simp] theorem Rings.kept_post (ms : List Msg) : (s.post ms).kept = s.kept := by
  funext p
  cases p <;> rfl

theorem Rings.kept_insert (g : GUID) (e : ContentEntry) :
    kept { s with content := s.content.insert g e } =
      update s.kept (.content g) (some (e.id.toReference, e.nonstickyTriggers)) := by
  funext p
  cases p with
  | content l => by_cases hl : l = g <;> simp [kept, hl]
  | _ => rfl

theorem Rings.kept_erase (g : GUID) :
    kept { s with content := s.content.erase g } = update s.kept (.content g) none := by
  funext p
  cases p with
  | content l => by_cases hl : l = g <;> simp [kept, hl]
  | _ => rfl

theorem Rings.kept_setIndex {n : String} {g : GUID} {ring : OrdMap GUID IndexEntry}
    {o : Option IndexEntry} (h : ∀ l, ring.find? l = if l = g then o else (s.indexDhts n).find? l) :
    (s.setIndex n ring).kept =
      update s.kept (.index n g) (o.map fun e => (e.id, e.nonstickyTriggers)) := by
  funext p
  cases p with
  | index m l =>
    by_cases hm : m = n
    · subst hm
      by_cases hl : l = g <;> simp [kept, setIndex, h, hl]
    · simp [kept, setIndex, hm]
  | _ => rfl

theorem Rings.kept_invokeTableTriggers (row : Row) (reason : TriggerReason) :
    (s.invokeTableTriggers row reason).kept = update s.kept .nonsticky (some (.any, [])) := by
  funext p
  cases p <;> rfl

end Views

/-! ### Triggers that fire -/

/-- The trigger that a message invokes. -/
def Msg.fired : Msg → Option (TriggerId × ℕ)
  | .trigger f tid _ _ => some (tid, f)
  | _ => none

/-- The removal that a message completes. -/
def Msg.completes : Msg → Option (ℕ × Result)
  | .removeReply (some c) result => some (c, result)
  | _ => none

theorem fired_invocations (ts : TriggerMap ℕ) (row : Row) (reason : TriggerReason) :
    (invocations ts row reason).filterMap Msg.fired = ts := by
  unfold invocations
  rw [filterMap_map]
  exact filterMap_some

variable {ts : TriggerMap ℕ}

theorem completes_invocations (ts : TriggerMap ℕ) (row : Row) (reason : TriggerReason) :
    (invocations ts row reason).filterMap Msg.completes = [] := by
  unfold invocations
  rw [filterMap_map]
  exact filterMap_eq_nil_iff.2 fun _ _ => rfl

/-- The triggers at the places are taken out, unless they are sticky. -/
def clear (ps : List Place) (ts : Place → TriggerMap ℕ) (p : Place) : TriggerMap ℕ :=
  if p ∈ ps ∧ p ≠ .sticky then [] else ts p

/-- The triggers at the places `ps` are fired: their functions are posted, and all but the sticky
ones taken out.  `cb` is the call whose completion may be posted. -/
structure Fires (cb : Option ℕ) (t : Table) (s s' : Rings) (ps : List Place) : Prop where
  nodup : ps.Nodup
  queue : ∃ ms, s'.queue = s.queue ++ ms ∧ ms.filterMap Msg.fired = ps.flatMap s.triggers ∧
    ∀ m ∈ ms, ∀ c, m.completes = some c → cb = some c.1
  triggers : s'.triggers = clear ps s.triggers
  placed : Placed t s'

section Fires

variable {t : Table} {s s' : Rings} {cb : Option ℕ}

theorem clear_nil (ts : Place → TriggerMap ℕ) : clear [] ts = ts := by
  funext p
  exact if_neg fun h => nomatch h.1

variable {ms : List Msg} {g : GUID} {e : ContentEntry} {digest : List UInt8 → GUID}
    {x : Result × Rings}

/-- Nothing is fired. -/
theorem Fires.of_kept (h : Placed t s) (hkept : s'.kept = s.kept)
    (hqueue : s'.queue = s.queue ++ ms) (hfired : ms.filterMap Msg.fired = [])
    (hcb : ∀ m ∈ ms, ∀ c, m.completes = some c → cb = some c.1) : Fires cb t s s' [] := by
  refine ⟨nodup_nil, ⟨ms, hqueue, hfired, hcb⟩, ?_, ?_⟩
  · rw [clear_nil]
    unfold Rings.triggers
    rw [hkept]
  · unfold Placed
    rw [hkept]
    exact h

theorem Fires.refl (h : Placed t s) : Fires cb t s s [] :=
  .of_kept h rfl (append_nil _).symm rfl (forall_mem_nil _)

/-- An answer. -/
theorem Fires.post_one (h : Placed t s) (hfired : m.fired = none)
    (hcb : ∀ c, m.completes = some c → cb = some c.1) : Fires cb t s (s.post [m]) [] := by
  refine .of_kept h (kept_post s _) rfl (filterMap_cons_none hfired) fun m' hm' => ?_
  rw [mem_singleton.1 hm']
  exact hcb

theorem clear_row (g : GUID) (ts : Place → TriggerMap ℕ) :
    clear [.content g, .sticky, .nonsticky] ts =
      update (update ts .nonsticky []) (.content g) [] := by
  funext p
  cases p with
  | content l => by_cases hl : l = g <;> simp [clear, hl]
  | index | sticky | nonsticky => simp [clear]

theorem clear_one {p : Place} (hp : p ≠ .sticky) (ts : Place → TriggerMap ℕ) :
    clear [p] ts = update ts p [] := by
  funext q
  rw [update_apply]
  split_ifs with hq
  · exact if_pos ⟨hq ▸ mem_cons_self, hq ▸ hp⟩
  · exact if_neg fun h => hq (mem_singleton.1 h.1)

variable {reply : Msg}

/-- Messages to index rings and rows fire nothing themselves, and complete nothing. -/
def Silent (ms : List Msg) : Prop := ∀ m ∈ ms, m.fired = none ∧ m.completes = none

theorem Silent.filterMap (h : Silent ms) :
    ms.filterMap Msg.fired = [] ∧ ms.filterMap Msg.completes = [] :=
  ⟨filterMap_eq_nil_iff.2 fun m hm => (h m hm).1, filterMap_eq_nil_iff.2 fun m hm => (h m hm).2⟩

theorem silent_map {α : Type} {as : List α} {update : α → Msg}
    (h : ∀ a, (update a).fired = none ∧ (update a).completes = none) :
    Silent (as.map update) := by
  intro m hm
  obtain ⟨a, -, rfl⟩ := mem_map.1 hm
  exact h a

/-- A change of the row under `g` fires the triggers of the row and of the table. -/
theorem Fires.row (h : Placed t s) {row : Row} {content : OrdMap GUID ContentEntry}
    {updates : List Msg} (hts : s.triggers (.content g) = ts)
    (hms : ms = updates ++ invocations ts row reason ∨ ms = invocations ts row reason ++ updates)
    (hupdates : Silent updates) (hfired : reply.fired = none)
    (hcb : ∀ c, reply.completes = some c → cb = some c.1)
    (hcontent : content = s.content.erase g ∨ ∃ e : ContentEntry,
      content = s.content.insert g e ∧ e.nonstickyTriggers = [] ∧ e.id.guid = g) :
    Fires cb t s ({ (s.post ms).invokeTableTriggers row reason with content }.post [reply])
      [.content g, .sticky, .nonsticky] := by
  obtain ⟨hnone, hcomp⟩ : ms.filterMap Msg.fired = ts ∧ ms.filterMap Msg.completes = [] := by
    rcases hms with rfl | rfl <;>
      simp [hupdates.filterMap, fired_invocations, completes_invocations]
  set s1 := (s.post ms).invokeTableTriggers row reason with hs1
  have htable : s1.kept = update s.kept .nonsticky (some (.any, [])) := by
    rw [hs1, Rings.kept_invokeTableTriggers, Rings.kept_post]
  obtain ⟨new, hkept, hnil, hnew⟩ : ∃ new,
      (Rings.post { s1 with content } [reply]).kept = update s1.kept (.content g) new ∧
      new.elim [] snd = [] ∧ ∀ r ts, new = some (r, ts) → PlacedAt t (.content g) r ts := by
    rcases hcontent with rfl | ⟨e, rfl, hts, hguid⟩
    · exact ⟨_, s1.kept_erase g, rfl, nofun⟩
    · refine ⟨_, s1.kept_insert g e, hts, fun r ts heq => ?_⟩
      obtain ⟨rfl, rfl⟩ := mk.inj (some.inj heq)
      rw [hts]
      exact .nil fun l hl => hguid.trans (some.inj hl)
  refine ⟨by simp, ⟨ms ++ (invocations s.stickyTableTriggers row reason ++
    invocations s.nonstickyTableTriggers row reason) ++ [reply], ?_, ?_, ?_⟩, ?_, ?_⟩
  · show s.queue ++ ms ++ (_ ++ _) ++ [reply] = _
    simp only [append_assoc]
    rfl
  · rw [filterMap_append, filterMap_append, filterMap_append, fired_invocations,
      fired_invocations, hnone, filterMap_cons_none hfired, ← hts]
    simp [flatMap_cons, Rings.triggers, Rings.kept]
  · intro m hm c hc
    have hmem := mem_filterMap.2 ⟨m, hm, hc⟩
    rw [filterMap_append, filterMap_append, filterMap_append, hcomp, completes_invocations,
      completes_invocations] at hmem
    obtain ⟨_, hm', hc'⟩ := mem_filterMap.1 hmem
    rw [mem_singleton.1 hm'] at hc'
    exact hcb c hc'
  · rw [Rings.triggers_update hkept, Rings.triggers_update htable, hnil, clear_row]
    rfl
  · refine (h.update htable fun r ts hts => ?_).update hkept hnew
    obtain ⟨rfl, rfl⟩ := mk.inj (some.inj hts)
    exact .nil nofun

theorem Rings.kept_of_find? (he : s.content.find? g = some e) :
    s.kept (.content g) = some (e.id.toReference, e.nonstickyTriggers) := by
  simp only [kept, he, map_some]

theorem Rings.triggers_of_find? (he : s.content.find? g = some e) :
    s.triggers (.content g) = e.nonstickyTriggers :=
  triggers_of_kept (kept_of_find? he)

theorem Placed.content_guid (h : Placed t s) (he : s.content.find? g = some e) : e.id.guid = g :=
  (h _ _ _ (kept_of_find? he)).guid g rfl

theorem fires_contentPut (h : Placed t s) (newSguids : OrdMap String GUID) (row : Row)
    (random : GUID) (c : ℕ) : ∃ ps, Fires cb t s (s.contentPut newSguids row random c).2 ps := by
  unfold contentPut
  dsimp only
  split
  · rename_i g hg
    cases hfind : s.content.find? g with
    | some e =>
      exact ⟨[], .post_one h rfl nofun⟩
    | none =>
      unfold ContentEntry.put
      have hmatch : RowReference.matches ⟨0, g⟩ ⟨0, g, false⟩ = true :=
        (RowReference.matches_toReference ⟨0, g⟩ ⟨0, g⟩).2 rfl
      rw [hmatch, Bool.not_true, if_neg Bool.false_ne_true]
      refine ⟨_, .row h (g := g) ?_ (.inl rfl) (silent_map fun _ => ⟨rfl, rfl⟩) rfl nofun
        (.inr ⟨_, rfl, rfl, rfl⟩)⟩
      unfold triggers kept
      dsimp only
      rw [hfind]
      rfl
  · exact ⟨[], .post_one h rfl nofun⟩

/-- A row that stays as it was is stored again. -/
theorem Fires.same (h : Placed t s) (he : s.content.find? g = some e) (hfired : reply.fired = none)
    (hcb : ∀ c, reply.completes = some c → cb = some c.1) :
    Fires cb t s ({ s with content := s.content.insert g e }.post [reply]) [] := by
  rw [OrdMap.insert_of_find? he]
  exact .post_one h hfired hcb

theorem fires_contentModify (h : Placed t s) (ctxt : Context) (newSguids : OrdMap String GUID)
    (row : Row) (c : ℕ) : ∃ ps, Fires cb t s (s.contentModify ctxt newSguids row c).2 ps := by
  unfold contentModify
  cases hfind : s.content.find? ctxt.currentRow.guid with
  | none => exact ⟨[], .post_one h rfl nofun⟩
  | some e =>
    dsimp only
    unfold ContentEntry.modify
    split_ifs with hmatch
    · exact ⟨[], .same h hfind rfl nofun⟩
    · refine ⟨_, .row h (triggers_of_find? hfind) (.inl rfl) (fun m hm => ?_) rfl nofun
        (.inr ⟨_, rfl, rfl, show e.id.guid = _ from h.content_guid hfind⟩)⟩
      obtain ⟨a, -, hm⟩ := mem_flatMap.1 hm
      rcases ContentEntry.mem_indexUpdates hm with rfl | ⟨prev, rfl⟩ | rfl <;> exact ⟨rfl, rfl⟩

theorem fires_internalRemove (h : Placed t s) (currentRow : Reference) (cb : Option ℕ) :
    ∃ ps, Fires cb t s (s.internalRemove currentRow cb).2 ps := by
  have hreply : ∀ result, ∀ c, (Msg.removeReply cb result).completes = some c →
      cb = some c.1 := by
    intro result c hc
    cases cb with
    | none => nomatch hc
    | some n => exact congrArg (fun c => some c.1) (some.inj hc)
  unfold internalRemove
  cases hfind : s.content.find? currentRow.guid with
  | none => exact ⟨[], .post_one h rfl (hreply _)⟩
  | some e =>
    dsimp only
    unfold ContentEntry.remove
    by_cases hmatch : (!e.id.matches currentRow) = true
    · rw [if_pos hmatch]
      by_cases hempty : e.empty = true
      · -- the row was not removed, but was removed before and is empty by now
        have hts : e.nonstickyTriggers = [] := by
          unfold ContentEntry.empty at hempty
          rw [Bool.and_eq_true, Bool.and_eq_true] at hempty
          exact isEmpty_iff.1 hempty.1.1
        have hkept := s.kept_erase currentRow.guid
        rw [if_pos hempty]
        refine ⟨[], nodup_nil, ⟨[.removeReply cb _], rfl, rfl, fun m hm => ?_⟩, ?_, ?_⟩
        · rw [mem_singleton.1 hm]
          exact hreply _
        · rw [triggers_update ((kept_post _ _).trans hkept), clear_nil]
          refine update_eq_self_iff.2 ?_
          rw [triggers_of_find? hfind, hts]
          rfl
        · exact h.update ((kept_post _ _).trans hkept) fun r ts hts =>
            nomatch hts
      · rw [if_neg hempty]
        exact ⟨[], .same h hfind rfl (hreply _)⟩
    · rw [if_neg hmatch]
      refine ⟨_, .row h (triggers_of_find? hfind) (.inr rfl)
        (silent_map fun _ => ⟨rfl, rfl⟩) rfl (hreply _) ?_⟩
      split_ifs
      · exact .inl rfl
      · exact .inr ⟨_, rfl, rfl, show e.id.guid = _ from h.content_guid hfind⟩

/-! The index rings. -/

variable {n : String}

/-- A change of an entry of an index ring fires the triggers of the entry. -/
theorem Fires.entry (row : Row) (reason : TriggerReason) (h : Placed t s)
    {ring : OrdMap GUID IndexEntry} (hts : s.triggers (.index n g) = ts) (hms : Silent ms)
    (hring : ring = (s.indexDhts n).erase g ∨ ∃ e : IndexEntry,
      ring = (s.indexDhts n).insert g e ∧ e.nonstickyTriggers = [] ∧ e.id.guid = g) :
    Fires cb t s ((s.setIndex n ring).post (invocations ts row reason ++ ms)) [.index n g] := by
  obtain ⟨new, hkept, hnil, hnew⟩ : ∃ new,
      ((s.setIndex n ring).post (invocations ts row reason ++ ms)).kept =
        update s.kept (.index n g) new ∧
      new.elim [] snd = [] ∧ ∀ r ts, new = some (r, ts) → PlacedAt t (.index n g) r ts := by
    rcases hring with rfl | ⟨e, rfl, hts, hguid⟩
    · exact ⟨_, s.kept_setIndex fun _ => OrdMap.find?_erase .., rfl, nofun⟩
    · refine ⟨_, s.kept_setIndex fun _ => OrdMap.find?_insert .., hts, fun r ts heq => ?_⟩
      obtain ⟨rfl, rfl⟩ := mk.inj (some.inj heq)
      rw [hts]
      exact .nil fun l hl => hguid.trans (some.inj hl)
  refine ⟨nodup_singleton _, ⟨_, rfl, ?_, fun m hm c hc => ?_⟩, ?_, h.update hkept hnew⟩
  · rw [filterMap_append, fired_invocations, hms.filterMap.1, append_nil, flatMap_singleton, hts]
  · have hmem := mem_filterMap.2 ⟨m, hm, hc⟩
    rw [filterMap_append, completes_invocations, hms.filterMap.2] at hmem
    nomatch hmem
  · rw [triggers_update hkept, hnil, clear_one Place.noConfusion]

variable {e : IndexEntry}

theorem Rings.kept_of_find?_index (he : (s.indexDhts n).find? g = some e) :
    s.kept (.index n g) = some (e.id, e.nonstickyTriggers) := by
  simp only [kept, he, map_some]

theorem Rings.triggers_of_find?_index
    (he : (s.indexDhts n).find? g = some e) : s.triggers (.index n g) = e.nonstickyTriggers :=
  triggers_of_kept (kept_of_find?_index he)

theorem Placed.index_guid (h : Placed t s) (he : (s.indexDhts n).find? g = some e) :
    e.id.guid = g :=
  (h _ _ _ (kept_of_find?_index he)).guid g rfl

theorem fires_indexPut (h : Placed t s) (n : String) (g : GUID) (ref : RowReference) (row : Row)
    (reason : TriggerReason) : ∃ ps, Fires cb t s (s.indexPut n g ref row reason) ps := by
  have hentry : (s.indexEntry n g).nonstickyTriggers = s.triggers (.index n g) ∧
      (s.indexEntry n g).id.guid = g := by
    unfold indexEntry
    cases he : (s.indexDhts n).find? g with
    | none =>
      refine ⟨?_, rfl⟩
      simp only [triggers, kept, he, map_none, elim_none]
      rfl
    | some e => exact ⟨(triggers_of_find?_index he).symm, h.index_guid he⟩
  exact ⟨_, .entry _ _ h hentry.1.symm (fun m hm => mem_singleton.1 hm ▸ ⟨rfl, rfl⟩)
    (.inr ⟨_, rfl, rfl, hentry.2⟩)⟩

theorem fires_indexModify (h : Placed t s) (n : String) (g : GUID) (prevRef ref : RowReference)
    (prevRow row : Row) (reason : TriggerReason) :
    ∃ ps, Fires cb t s (s.indexModify n g prevRef ref prevRow row reason) ps := by
  unfold indexModify
  cases he : (s.indexDhts n).find? g with
  | none => exact fires_indexPut h n g ref row reason
  | some e =>
    exact ⟨_, .entry _ _ h (triggers_of_find?_index he)
      (fun m hm => mem_singleton.1 hm ▸ ⟨rfl, rfl⟩)
      (.inr ⟨_, rfl, rfl, show e.id.guid = g from h.index_guid he⟩)⟩

theorem Rings.setIndex_insert_self (s : Rings) (he : (s.indexDhts n).find? g = some e) :
    s.setIndex n ((s.indexDhts n).insert g e) = s := by
  rw [OrdMap.insert_of_find? he]
  unfold setIndex
  rw [update_eq_self]

theorem fires_indexRemove (h : Placed t s) (n : String) (g : GUID) (ref : RowReference) (row : Row)
    (updated : RowReference) (reason : TriggerReason) :
    ∃ ps, Fires cb t s (s.indexRemove n g ref row updated reason) ps := by
  unfold indexRemove
  cases he : (s.indexDhts n).find? g with
  | none => exact ⟨[], .post_one h rfl nofun⟩
  | some e =>
    dsimp only
    unfold IndexEntry.remove
    by_cases href : ref ∈ e.refs
    · rw [if_neg (not_not.2 href)]
      rw [append_assoc]
      refine ⟨_, .entry _ _ h (triggers_of_find?_index he) (fun m hm => ?_) ?_⟩
      · rcases mem_append.1 hm with hm | hm
        · exact silent_map (fun _ => ⟨rfl, rfl⟩) m hm
        · exact mem_singleton.1 hm ▸ ⟨rfl, rfl⟩
      · split_ifs
        · exact .inl rfl
        · exact .inr ⟨_, rfl, rfl, show e.id.guid = g from h.index_guid he⟩
    · -- nothing to remove, and the entry stays unless it is empty
      rw [if_pos href]
      by_cases hempty : e.empty = true
      · have hts : e.nonstickyTriggers = [] := by
          unfold IndexEntry.empty at hempty
          rw [Bool.and_eq_true] at hempty
          exact isEmpty_iff.1 hempty.1
        rw [if_pos hempty]
        exact ⟨_, .entry row reason h ((triggers_of_find?_index he).trans hts)
          (fun m hm => mem_singleton.1 hm ▸ ⟨rfl, rfl⟩) (.inl rfl)⟩
      · rw [if_neg hempty, s.setIndex_insert_self he]
        exact ⟨[], .post_one h rfl nofun⟩

theorem fires_indexEntryUpdated (h : Placed t s) (ref : RowReference) (n : String) (g : GUID)
    (tdef : Option (TriggerId × PrimaryDeleted)) :
    Fires cb t s (s.indexEntryUpdated ref n g tdef) [] := by
  unfold indexEntryUpdated
  split
  · rename_i tdef e he
    set e' := e.indexEntryUpdated ref n g tdef with he'
    have hkept : kept { s with content := s.content.insert ref.guid e' } = s.kept := by
      rw [he', kept_insert]
      refine update_eq_self_iff.2 ?_
      unfold kept ContentEntry.indexEntryUpdated
      dsimp only
      rw [he]
      split_ifs <;> rfl
    exact .of_kept h hkept (append_nil _).symm rfl (forall_mem_nil _)
  · exact .refl h

/-- What a read posts fires nothing and completes nothing. -/
theorem Msg.quiet_of_reader (h : m.reader = some c) : m.fired = none ∧ m.completes = none := by
  cases m <;> first | exact ⟨rfl, rfl⟩ | nomatch h

theorem Fires.read (h : Placed t s) (hm : m.reader = some c) : Fires cb t s (s.post [m]) [] := by
  obtain ⟨hfired, hcomp⟩ := Msg.quiet_of_reader hm
  exact .post_one h hfired fun c hc => nomatch hc.symm.trans hcomp

/-- **The delivery of a message fires the triggers of the places it touches.** -/
theorem fires_handle (h : Placed t s) (m : Msg) : ∃ ps, Fires none t s (s.handle m) ps := by
  cases m with
  | indexPut n g ref row reason => exact fires_indexPut h n g ref row reason
  | indexModify n g prevRef ref prevRow row reason =>
    exact fires_indexModify h n g prevRef ref prevRow row reason
  | indexRemove n g ref row updated reason =>
    exact fires_indexRemove h n g ref row updated reason
  | entryUpdated ref n g tdef => exact ⟨[], fires_indexEntryUpdated h ref n g tdef⟩
  | entryDeleted ref => exact fires_internalRemove h ref.toReference none
  | contentGet ctxt id exact cb =>
    obtain ⟨m, hm, hr, -⟩ := s.reads_contentGet ctxt id exact cb
    refine ⟨[], show Fires none t s (s.contentGet ctxt id exact cb) [] from ?_⟩
    rw [hm]
    exact .read h hr
  | indexGet ctxt id cb =>
    obtain ⟨m, hm, hr, -⟩ := s.reads_indexGet ctxt id cb
    refine ⟨[], show Fires none t s (s.indexGet ctxt id cb) [] from ?_⟩
    rw [hm]
    exact .read h hr
  | trigger | getReply | putReply | modifyReply | removeReply | putTriggerReply =>
    exact ⟨[], .refl h⟩

theorem fires_put (h : Placed t s) {row : Row} {random : GUID}
    (hput : s.put digest t row random c = some x) : ∃ ps, Fires cb t s x.2 ps := by
  unfold put at hput
  split at hput
  · cases hput
    exact ⟨[], .post_one h rfl nofun⟩
  · obtain ⟨sguids, -, rfl⟩ := map_eq_some_iff.1 hput
    exact fires_contentPut h sguids row random c

theorem fires_modify (h : Placed t s) {ctxt : Context} {row : Row}
    (hmodify : s.modify digest t ctxt row c = some x) : ∃ ps, Fires cb t s x.2 ps := by
  unfold Rings.modify at hmodify
  split at hmodify
  · cases hmodify
    exact ⟨[], .post_one h rfl nofun⟩
  · obtain ⟨sguids, -, rfl⟩ := map_eq_some_iff.1 hmodify
    split_ifs
    · exact fires_contentModify h ctxt sguids row c
    · exact ⟨[], .post_one h rfl nofun⟩

end Fires

/-! ### Triggers that are installed and removed -/

/-- The answer to `put_trigger` is posted, and if it is a success the trigger `f` kept at `p`. -/
structure Arms (t : Table) (s s' : Rings) (p : Place) (f : ℕ) : Prop where
  placed : Placed t s'
  posted : ∃ result tid, s'.queue = s.queue ++ [.putTriggerReply f result tid] ∧
    ∀ q x, x ∈ s'.triggers q →
      x ∈ s.triggers q ∨ (result.code = .success ∧ q = p ∧ x = (tid, f))

section Arms

variable {t : Table} {s s' : Rings} {f : ℕ}

/-- A request that fails. -/
theorem Arms.failed (h : Placed t s) (p : Place) (message : String) :
    Arms t s (s.post [.putTriggerReply f (.concurrent message) .failed]) p f := by
  refine ⟨?_, _, _, rfl, fun q x hx => .inl ?_⟩
  · exact h
  · unfold triggers at hx
    rwa [kept_post] at hx

variable {p : Place} {r : Reference}

/-- A trigger is put into the map of a place. -/
theorem Arms.set (h : Placed t s) {n : ℤ}
    (hts : s.triggers p = ts) (hr : PlacedAt t p r ts)
    (hindex : ∀ n g, p = .index n g → n ∈ t.indices)
    (hkept : s'.kept = update s.kept p
      (some (r, setBy TriggerId.less ⟨p.forTable, p.ring t, r, n⟩ f ts)))
    (hqueue : s'.queue = s.queue ++ [.putTriggerReply f .ok ⟨p.forTable, p.ring t, r, n⟩]) :
    Arms t s s' p f := by
  obtain ⟨hfam, hmem⟩ := hr.family.setBy (n := n) (f := f)
  refine ⟨h.update hkept fun r' ts' heq => ?_, _, _, hqueue, fun q x hx => ?_⟩
  · obtain ⟨rfl, rfl⟩ := mk.inj (some.inj heq)
    exact ⟨hr.guid, hfam, fun n g hp _ => hindex n g hp⟩
  rw [triggers_update hkept] at hx
  rw [update_apply] at hx
  split_ifs at hx with hq
  · subst hq
    exact (hmem x hx).symm.imp (fun hx => hts ▸ hx) fun hx => ⟨rfl, rfl, hx⟩
  · exact .inl hx

theorem arms_putTrigger (h : Placed t s) (ctxt : Context) (f : ℕ) :
    Arms t s (s.putTrigger t ctxt f f) (Store.placeOf ctxt) f := by
  unfold putTrigger Store.placeOf
  split_ifs with hctxt
  · cases he : s.content.find? ctxt.currentRow.guid with
    | none => exact .failed h _ _
    | some e =>
      dsimp only
      unfold putEntryTrigger
      split_ifs with hmatch
      · have hsame : s.content.insert ctxt.currentRow.guid e = s.content :=
          OrdMap.insert_of_find? he
        rw [hsame]
        exact .failed h _ _
      · refine .set (r := e.id.toReference) h (triggers_of_find? he) ?_ ?_ ?_ rfl
        · exact h _ _ _ (kept_of_find? he)
        · exact fun n g hp => Place.noConfusion hp
        · exact s.kept_insert _ _
  · cases hindex : t.indices.lookup ctxt.index with
    | none => exact .failed h _ _
    | some columns =>
      have hmem : ∀ n g, Place.index ctxt.index ctxt.indexRow.guid = .index n g →
          n ∈ t.indices := by
        intro n g hp
        rw [← (Place.index.inj hp).1]
        exact AList.lookup_isSome.1 (hindex ▸ rfl)
      dsimp only
      unfold putEntryTrigger
      cases he : (s.indexDhts ctxt.index).find? ctxt.indexRow.guid with
      | none =>
        -- an entry is made that has the reference of the context
        rw [getD_none, Reference.matches_self, Bool.not_true, if_neg Bool.false_ne_true]
        refine .set (r := ctxt.indexRow) h ?_ (.nil fun g hg => ?_) hmem ?_ rfl
        · simp only [triggers, kept, he, map_none, elim_none]
        · exact some.inj hg
        · exact s.kept_setIndex fun _ => OrdMap.find?_insert ..
      | some e =>
        rw [getD_some]
        split_ifs with hmatch
        · rw [show s.setIndex ctxt.index _ = s from s.setIndex_insert_self he]
          exact .failed h _ _
        · refine .set (r := e.id) h (triggers_of_find?_index he) ?_ hmem ?_ rfl
          · exact h _ _ _ (kept_of_find?_index he)
          · exact s.kept_setIndex fun _ => OrdMap.find?_insert ..

theorem arms_putTableTrigger (h : Placed t s) (sticky : Bool) (f : ℕ) :
    Arms t s (s.putTableTrigger t sticky f f) (if sticky then .sticky else .nonsticky) f := by
  cases sticky with
  | true =>
    refine .set (p := .sticky) (r := .any) h rfl (h .sticky _ _ rfl)
      (fun n g hp => Place.noConfusion hp) ?_ rfl
    funext p
    cases p <;> rfl
  | false =>
    refine .set (p := .nonsticky) (r := .any) h rfl (h .nonsticky _ _ rfl)
      (fun n g hp => Place.noConfusion hp) ?_ rfl
    funext p
    cases p <;> rfl

/-- A trigger is taken out of the map of a place, or not. -/
theorem Placed.erase (h : Placed t s) (hp : s.kept p = some (r, ts)) (hts : ts'.Sublist ts)
    (hkept : s'.kept = Function.update s.kept p (some (r, ts'))) :
    Placed t s' ∧ (∀ q, (s'.triggers q).Sublist (s.triggers q)) ∧ s'.triggers p = ts' := by
  refine ⟨h.update hkept fun r' ts'' heq => ?_, fun q => ?_, ?_⟩
  · obtain ⟨rfl, rfl⟩ := mk.inj (Option.some.inj heq)
    exact (h p r ts hp).sublist hts
  · rw [triggers_update hkept]
    rw [update_apply]
    split_ifs with hq
    · rw [hq, triggers_of_kept hp]
      exact hts
    · rfl
  · rw [triggers_update hkept, update_self]
    rfl

/-- The answer to `remove_trigger` is posted, and if it is a success no trigger has the id. -/
structure Takes (t : Table) (s s' : Rings) (tid : TriggerId) (c : ℕ) : Prop where
  placed : Placed t s'
  sublist : ∀ q, (s'.triggers q).Sublist (s.triggers q)
  posted : ∃ result, s'.queue = s.queue ++ [.removeReply (some c) result] ∧
    (result.code = .success → ∀ q f, (tid, f) ∉ s'.triggers q)

variable {result : Result}

theorem Takes.post (hplaced : Placed t s')
    (hsub : ∀ q, (s'.triggers q).Sublist (s.triggers q)) (hqueue : s'.queue = s.queue)
    (hgone : result.code = .success → ∀ q f, (tid, f) ∉ s'.triggers q) :
    Takes t s (s'.post [.removeReply (some c) result]) tid c := by
  have hts : (s'.post [.removeReply (some c) result]).triggers = s'.triggers := by
    unfold triggers
    rw [kept_post]
  refine ⟨?_, hts.symm ▸ hsub, result, ?_, hts.symm ▸ hgone⟩
  · exact hplaced
  · rw [post_queue, hqueue]

section

variable (h : Placed t s)
include h

/-- The entry where the trigger must be, if it is anywhere. -/
theorem Takes.entry (hp : s.kept p = some (r, ts))
    (hkept : s'.kept = update s.kept p (some (r, (removeEntryTrigger r tid ts).2)))
    (hqueue : s'.queue = s.queue)
    (hplace : ∀ {s' : Rings} {q : Place} {f : ℕ}, Placed t s' → (tid, f) ∈ s'.triggers q → q = p) :
    Takes t s (s'.post [.removeReply (some c) result]) tid c := by
  have hsub : (removeEntryTrigger r tid ts).2.Sublist ts := by
    unfold removeEntryTrigger
    split_ifs
    · exact Sublist.refl _
    · exact eraseBy_sublist _ _ _
  obtain ⟨hplaced, hsubs, hat⟩ := h.erase hp hsub hkept
  refine .post hplaced hsubs hqueue fun _ q f hx => ?_
  rw [hplace hplaced hx, hat] at hx
  have hfam := (h p r ts hp).family
  have href : tid.ref = r := (hfam.same _ (hsub.subset hx)).2.2
  unfold removeEntryTrigger at hx
  rw [href, Reference.matches_self, Bool.not_true, if_neg Bool.false_ne_true] at hx
  exact hfam.not_mem_erased tid hx

theorem takes_index (hname : t.name ∉ t.indices)
    {columns : List String} (hindex : t.indices.lookup tid.ring = some columns) :
    Takes t s (s.removeTrigger t tid c) tid c := by
  have hmem : tid.ring ∈ t.indices := AList.lookup_isSome.1 (hindex ▸ rfl)
  have hne : tid.ring ≠ t.name := fun heq => hname (heq ▸ hmem)
  have hplace : ∀ {s' : Rings} {q : Place} {f : ℕ}, Placed t s' → (tid, f) ∈ s'.triggers q →
      q = .index tid.ring tid.ref.guid := by
    intro s' q f hs' hx
    obtain ⟨-, hring, -, hguid⟩ := hs'.id hx
    cases q with
    | index n g => rw [hring, hguid g rfl]; rfl
    | content | sticky | nonsticky => exact absurd hring hne
  unfold removeTrigger
  rw [hindex]
  dsimp only
  cases he : (s.indexDhts tid.ring).find? tid.ref.guid with
  | none =>
    refine .post h (fun q => Sublist.refl _) rfl fun _ q f hx => ?_
    obtain ⟨-, -, hkept, -⟩ := h.id hx
    simp only [hplace h hx, kept, he] at hkept
    nomatch hkept
  | some e =>
    exact .entry h (kept_of_find?_index he) (s.kept_setIndex fun _ => OrdMap.find?_insert ..) rfl
      hplace

theorem takes_row
    (hindex : t.indices.lookup tid.ring = none) (hring : tid.ring = t.name)
    (htable : tid.forTable = false) : Takes t s (s.removeTrigger t tid c) tid c := by
  have hplace : ∀ {s' : Rings} {q : Place} {f : ℕ}, Placed t s' → (tid, f) ∈ s'.triggers q →
      q = .content tid.ref.guid := by
    intro s' q f hs' hx
    obtain ⟨hft, hring', -, hguid⟩ := hs'.id hx
    cases q with
    | content g => rw [hguid g rfl]
    | index n g =>
      obtain ⟨r, -, hat⟩ := hs'.of_mem hx
      have hn : tid.ring ∈ t.indices :=
        (show tid.ring = n from hring') ▸ hat.index n g rfl (ne_nil_of_mem hx)
      rw [← AList.lookup_isSome, hindex] at hn
      nomatch hn
    | sticky | nonsticky => nomatch htable.symm.trans hft
  unfold removeTrigger
  rw [hindex]
  rw [if_neg (not_not.2 hring), htable, if_neg Bool.false_ne_true]
  cases he : s.content.find? tid.ref.guid with
  | none =>
    exact .post h (fun q => Sublist.refl _) rfl Code.noConfusion
  | some e =>
    exact .entry h (kept_of_find? he) (s.kept_insert _ _) rfl hplace

theorem takes_table
    (hindex : t.indices.lookup tid.ring = none) (hring : tid.ring = t.name)
    (htable : tid.forTable = true) : Takes t s (s.removeTrigger t tid c) tid c := by
  unfold removeTrigger
  rw [hindex]
  rw [if_neg (not_not.2 hring), if_pos htable]
  set ts1 := eraseBy TriggerId.less tid s.stickyTableTriggers with hts1
  set ts2 := eraseBy TriggerId.less tid s.nonstickyTableTriggers with hts2
  have hsticky : s.kept .sticky = some (.any, s.stickyTableTriggers) := rfl
  have hkept1 : kept { s with stickyTableTriggers := ts1 } =
      update s.kept .sticky (some (.any, ts1)) := by
    funext p
    cases p <;> rfl
  obtain ⟨hk1, hs1, -⟩ := h.erase hsticky (eraseBy_sublist _ tid _) hkept1
  have hkept2 : kept
      { s with stickyTableTriggers := ts1, nonstickyTableTriggers := ts2 } =
      update (kept { s with stickyTableTriggers := ts1 }) .nonsticky (some (.any, ts2)) := by
    funext p
    cases p <;> rfl
  obtain ⟨hk2, hs2, -⟩ := hk1.erase (p := .nonsticky) rfl (eraseBy_sublist _ tid _) hkept2
  refine .post hk2 (fun q => (hs2 q).trans (hs1 q)) rfl fun _ q f hx => ?_
  obtain ⟨hft, -, -, -⟩ := hk2.id hx
  cases q with
  | content | index => nomatch htable.symm.trans hft
  | sticky => exact (h _ _ _ hsticky).family.not_mem_erased tid hx
  | nonsticky => exact (h .nonsticky _ _ rfl).family.not_mem_erased tid hx

/-- **A removal that succeeds has taken the trigger out**, in whatever map of the table it was. -/
theorem takes_removeTrigger (hname : t.name ∉ t.indices) (tid : TriggerId)
    (c : ℕ) : Takes t s (s.removeTrigger t tid c) tid c := by
  cases hindex : t.indices.lookup tid.ring with
  | some columns => exact takes_index h hname hindex
  | none =>
    by_cases hring : tid.ring = t.name
    · cases htable : tid.forTable with
      | true => exact takes_table h hindex hring htable
      | false => exact takes_row h hindex hring htable
    · unfold removeTrigger
      rw [hindex]
      rw [if_pos hring]
      exact .post h (fun q => Sublist.refl _) rfl Code.noConfusion

end

end Arms

end NoxClassic.Storage
