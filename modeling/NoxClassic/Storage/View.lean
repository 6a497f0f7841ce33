/-
# What a step of the storage does

The results about the storage see of a state only three things: which version and
content each row has (`core`), which references each index entry holds (`refs`),
and the queue.  This module says once, for each function of the rings, what it does
to these; triggers and counters are behind it.

A step is `Quiet` when it changes neither rows nor references and posts only
messages that will not do so either.
-/

import NoxClassic.Storage.System

namespace NoxClassic.Storage

open List Option Rings

open Lib (OrdMap)

/-- A row without its triggers. -/
structure Core where
  id : RowReference
  row : Row
  sguids : OrdMap String GUID

/-- The row of an entry. -/
def ContentEntry.core (e : ContentEntry) : Core := ⟨e.id, e.row, e.sguids⟩

/-- The rows of the content ring. -/
def Rings.core (s : Rings) (g : GUID) : Option Core := (s.content.find? g).map ContentEntry.core

/-- The references the ring of an index holds under a secondary GUID. -/
def Rings.refs (s : Rings) (index : String) (sguid : GUID) : List RowReference :=
  ((s.indexDhts index).find? sguid).elim [] IndexEntry.refs

/-- What a message does to the references under `sguid` when it is run. -/
def Msg.onRefs (index : String) (sguid : GUID) (refs : List RowReference) :
    Msg → List RowReference
  | .indexPut i g ref _ _ => if i = index ∧ g = sguid then refs ++ [ref] else refs
  | .indexModify i g prevRef ref _ _ _ =>
    if i = index ∧ g = sguid then refs.erase prevRef ++ [ref] else refs
  | .indexRemove i g ref _ _ _ => if i = index ∧ g = sguid then refs.erase ref else refs
  | _ => refs

/-- The reference whose row a message may remove, now or by the callback it leads to. -/
def Msg.removes : Msg → Option RowReference
  | .indexRemove _ _ ref _ _ _ => some ref
  | .entryDeleted ref => some ref
  | _ => none

/-- The message changes no references and leads to no removal; a context it hands out is that of
one of the rows `core`. -/
structure Inert (core : GUID → Option Core) (m : Msg) : Prop where
  removes : m.removes = none
  onRefs : ∀ i g refs, m.onRefs i g refs = refs
  context : ∀ ctxt, m.context = some ctxt →
    ∃ g c, core g = some c ∧ ctxt.currentRow = c.id.toReference

/-- Nothing happens to rows and references. -/
structure Quiet (s s' : Rings) : Prop where
  core : s'.core = s.core
  refs : s'.refs = s.refs
  queue : ∃ ms, s'.queue = s.queue ++ ms ∧ ∀ m ∈ ms, Inert s.core m

variable {s : Rings}

@[simp] theorem Rings.post_refs (s : Rings) (ms : List Msg) : (s.post ms).refs = s.refs := rfl

@[simp] theorem Rings.post_queue (s : Rings) (ms : List Msg) :
    (s.post ms).queue = s.queue ++ ms := rfl

theorem Quiet.post {ms : List Msg} (h : ∀ m ∈ ms, Inert s.core m) : Quiet s (s.post ms) :=
  ⟨rfl, rfl, ms, rfl, h⟩

variable {m : Msg} {e : ContentEntry} {g : GUID} {cb : ℕ} {digest : List UInt8 → GUID} {s' : Rings}

theorem Quiet.post_one (h : Inert s.core m) : Quiet s (s.post [m]) :=
  Quiet.post fun _ hm => mem_singleton.1 hm ▸ h

/-- A message that is an answer without a context, or a trigger of an application. -/
theorem Inert.of_none {core : GUID → Option Core}
    (h : (m.removes, m.onRefs, m.context) = (none, fun _ _ refs => refs, none)) : Inert core m := by
  obtain ⟨hr, h⟩ := Prod.mk.inj h
  obtain ⟨ho, hc⟩ := Prod.mk.inj h
  exact ⟨hr, fun i g refs => congrFun (congrFun (congrFun ho i) g) refs,
    fun ctxt h => nomatch h.symm.trans hc⟩

theorem Inert.invocation {core : GUID → Option Core} {ts : TriggerMap ℕ} {row : Row}
    {reason : TriggerReason} (h : m ∈ invocations ts row reason) : Inert core m := by
  obtain ⟨t, -, rfl⟩ := mem_map.1 h
  exact Inert.of_none rfl

/-- The row under `g` changes in its triggers only. -/
theorem Rings.core_insert_of_core_eq {e' : ContentEntry} (he : s.content.find? g = some e)
    (hcore : e'.core = e.core) : core { s with content := s.content.insert g e' } = s.core := by
  funext l
  simp only [core, OrdMap.find?_insert]
  split_ifs with hl
  · rw [hl, he, map_some, map_some, hcore]
  · rfl

/-! ### Requests that read -/

/-- The callback that the answer to a read goes to. -/
def Msg.reader : Msg → Option ℕ
  | .contentGet _ _ _ cb => some cb
  | .indexGet _ _ cb => some cb
  | .getReply cb _ _ _ => some cb
  | _ => none

/-- An update for an index puts the new reference, removes the old one or does both. -/
theorem ContentEntry.mem_indexUpdates {row : Row} {index : String} {sguid : GUID}
    (hm : m ∈ e.indexUpdates row index sguid) :
    m = .indexPut index sguid e.id.next row .modify ∨
      (∃ prev, m = .indexRemove index prev e.id e.row e.id.next .modify) ∨
      m = .indexModify index sguid e.id e.id.next e.row row .modify := by
  unfold indexUpdates at hm
  simp only at hm
  split at hm
  · split at hm <;> rcases mem_pair.1 hm with rfl | rfl <;> simp
  · exact .inr (.inr (mem_singleton.1 hm))

/-- A read does no more than post one message for its callback. -/
def Reads (s : Rings) (cb : ℕ) (s' : Rings) : Prop :=
  ∃ m, s' = s.post [m] ∧ m.reader = some cb ∧ Inert s.core m

theorem Reads.quiet (h : Reads s cb s') : Quiet s s' := by
  obtain ⟨m, rfl, -, hm⟩ := h
  exact Quiet.post_one hm

theorem ContentEntry.inert_get (he : s.content.find? g = some e) (ctxt : Context) (id : Reference)
    (exact : Bool) (cb : ℕ) : Inert s.core (e.get ctxt id exact cb) := by
  unfold ContentEntry.get
  split
  · exact Inert.of_none rfl
  · refine ⟨rfl, fun _ _ _ => rfl, fun ctxt' h => ⟨g, e.core, by rw [Rings.core, he]; rfl, ?_⟩⟩
    cases h
    rfl

theorem Rings.reads_contentGet (s : Rings) (ctxt : Context) (id : Reference) (exact : Bool)
    (cb : ℕ) : Reads s cb (s.contentGet ctxt id exact cb) := by
  unfold contentGet
  split
  · cases exact <;> exact ⟨_, rfl, rfl, Inert.of_none rfl⟩
  rename_i e he
  have hfind : ∃ g, s.content.find? g = some e := by
    cases exact with
    | true => exact ⟨_, he⟩
    | false =>
      obtain ⟨⟨g, e'⟩, hl, rfl⟩ := map_eq_some_iff.1 he
      exact ⟨g, (OrdMap.first_eq_some hl).1⟩
  obtain ⟨g, hg⟩ := hfind
  refine ⟨_, rfl, ?_, ContentEntry.inert_get hg ctxt id exact cb⟩
  unfold ContentEntry.get
  split <;> rfl

theorem Rings.reads_contentGetNext (s : Rings) (ctxt : Context) (cb : ℕ) :
    Reads s cb (s.contentGetNext ctxt cb) := by
  have hend : Inert s.core (.getReply cb ⟨.noMoreRows, "End of rows."⟩ ctxt ∅) :=
    Inert.of_none rfl
  unfold contentGetNext
  simp only
  split
  · exact ⟨_, rfl, rfl, hend⟩
  rename_i g e he
  split
  · exact ⟨_, rfl, rfl, hend⟩
  split
  · exact ⟨_, rfl, rfl, hend⟩
  · have hfind : s.content.find? g = some e := by
      rcases or_eq_some_iff.1 he with h | ⟨-, h⟩ <;> exact (OrdMap.first_eq_some h).1
    refine ⟨_, rfl, rfl, rfl, fun _ _ _ => rfl, fun ctxt' h => ?_⟩
    exact ⟨_, e.core, by rw [Rings.core, hfind]; rfl, by cases h; rfl⟩

theorem Rings.reads_indexGet (s : Rings) (ctxt : Context) (id : Reference) (cb : ℕ) :
    Reads s cb (s.indexGet ctxt id cb) := by
  unfold indexGet
  simp only
  split
  · exact ⟨_, rfl, rfl, Inert.of_none rfl⟩
  · unfold IndexEntry.get
    split <;> exact ⟨_, rfl, rfl, Inert.of_none rfl⟩

theorem Rings.reads_indexGetNext (s : Rings) (ctxt : Context) (cb : ℕ) :
    Reads s cb (s.indexGetNext ctxt cb) := by
  unfold indexGetNext
  split
  · exact ⟨_, rfl, rfl, Inert.of_none rfl⟩
  · unfold IndexEntry.getNext
    split
    · exact ⟨_, rfl, rfl, Inert.of_none rfl⟩
    · split <;> exact ⟨_, rfl, rfl, Inert.of_none rfl⟩

theorem Rings.reads_getNext (s : Rings) (table : Table) (ctxt : Context) (cb : ℕ) :
    Reads s cb (s.getNext table ctxt cb) := by
  unfold getNext
  split
  · split
    · exact ⟨_, rfl, rfl, Inert.of_none rfl⟩
    · exact s.reads_indexGetNext ctxt cb
  · exact s.reads_contentGetNext ctxt cb

theorem Rings.reads_get {table : Table} {query : Row}
    (h : s.get digest table query cb = some s') : Reads s cb s' := by
  have hone (m : Msg) (hm : Inert s.core m) (hr : m.reader = some cb)
      (he : some (s.post [m]) = some s') : Reads s cb s' := ⟨m, (some.inj he).symm, hr, hm⟩
  unfold get at h
  split at h
  · exact hone _ (Inert.of_none rfl) rfl h
  split at h
  · exact hone _ (Inert.of_none rfl) rfl h
  split at h
  · split at h
    · obtain ⟨sguid, -, h⟩ := bind_eq_some_iff.1 h
      exact hone _ (Inert.of_none rfl) rfl h
    · exact hone _ (Inert.of_none rfl) rfl h
  · exact hone _ (Inert.of_none rfl) rfl h
  · nomatch h

/-! ### Triggers -/

theorem Rings.refs_setIndex (s : Rings) (index : String) (ring : OrdMap GUID IndexEntry)
    (i : String) (g : GUID) :
    (s.setIndex index ring).refs i g =
      if index = i then (ring.find? g).elim [] IndexEntry.refs else s.refs i g := by
  simp only [refs, setIndex, Function.update_apply, eq_comm (a := i)]
  split_ifs <;> rfl

theorem Rings.refs_setIndex_insert (s : Rings) (index : String) (sguid : GUID) (e : IndexEntry)
    (i : String) (g : GUID) :
    (s.setIndex index ((s.indexDhts index).insert sguid e)).refs i g =
      if index = i ∧ sguid = g then e.refs else s.refs i g := by
  simp only [refs_setIndex, OrdMap.find?_insert, ite_and, eq_comm (a := g)]
  split_ifs with hi <;> try subst hi
  all_goals rfl

/-- The references under `sguid` stay as they are. -/
theorem Rings.refs_setIndex_of_eq {index : String} {sguid : GUID} {e : IndexEntry}
    (he : e.refs = s.refs index sguid) :
    (s.setIndex index ((s.indexDhts index).insert sguid e)).refs = s.refs := by
  funext i g
  rw [refs_setIndex_insert]
  split_ifs with h
  · rw [he, h.1, h.2]
  · rfl

theorem inert_putEntryTrigger (core : GUID → Option Core) (ring : String)
    (id currentRow : Reference) (nextTid : ℤ) (triggers : TriggerMap ℕ) (f cb : ℕ) :
    Inert core (putEntryTrigger ring id currentRow nextTid triggers f cb).1 := by
  unfold putEntryTrigger
  split <;> exact Inert.of_none rfl

theorem Rings.quiet_putTrigger (s : Rings) (table : Table) (ctxt : Context) (f cb : ℕ) :
    Quiet s (s.putTrigger table ctxt f cb) := by
  unfold putTrigger
  split
  · split
    · exact Quiet.post_one (Inert.of_none rfl)
    · rename_i e he
      exact ⟨core_insert_of_core_eq he rfl, rfl, _, rfl, fun m hm =>
        mem_singleton.1 hm ▸ inert_putEntryTrigger _ _ _ _ _ _ _ _⟩
  · split
    · exact Quiet.post_one (Inert.of_none rfl)
    · refine ⟨rfl, refs_setIndex_of_eq ?_, _, rfl, fun m hm =>
        mem_singleton.1 hm ▸ inert_putEntryTrigger _ _ _ _ _ _ _ _⟩
      simp only [refs]
      cases (s.indexDhts ctxt.index).find? ctxt.indexRow.guid <;> rfl

theorem Rings.quiet_putTableTrigger (s : Rings) (table : Table) (sticky : Bool) (f cb : ℕ) :
    Quiet s (s.putTableTrigger table sticky f cb) := by
  have hinert : ∀ tid, Inert s.core (.putTriggerReply cb .ok tid) := fun tid => Inert.of_none rfl
  cases sticky <;> exact ⟨rfl, rfl, _, rfl, fun m hm => mem_singleton.1 hm ▸ hinert _⟩

theorem Rings.quiet_removeTrigger (s : Rings) (table : Table) (tid : TriggerId) (cb : ℕ) :
    Quiet s (s.removeTrigger table tid cb) := by
  have hinert : ∀ cb result, Inert s.core (.removeReply cb result) :=
    fun cb result => Inert.of_none rfl
  unfold removeTrigger
  split
  · simp only
    split
    · exact Quiet.post_one (hinert _ _)
    · rename_i e he
      refine ⟨rfl, refs_setIndex_of_eq ?_, _, rfl, fun m hm => mem_singleton.1 hm ▸ hinert _ _⟩
      simp only [refs, he, elim_some]
  · split
    · exact Quiet.post_one (hinert _ _)
    split
    · exact ⟨rfl, rfl, _, rfl, fun m hm => mem_singleton.1 hm ▸ hinert _ _⟩
    · split
      · exact Quiet.post_one (hinert _ _)
      · rename_i e he
        exact ⟨core_insert_of_core_eq he rfl, rfl, _, rfl,
          fun m hm => mem_singleton.1 hm ▸ hinert _ _⟩

theorem Rings.quiet_indexEntryUpdated (s : Rings) (ref : RowReference) (index : String)
    (sguid : GUID) (tdef : Option (TriggerId × PrimaryDeleted)) :
    Quiet s (s.indexEntryUpdated ref index sguid tdef) := by
  unfold indexEntryUpdated
  split
  · rename_i tdef e he
    refine ⟨core_insert_of_core_eq he ?_, rfl, [], (append_nil _).symm, by simp⟩
    unfold ContentEntry.indexEntryUpdated
    split <;> rfl
  · exact ⟨rfl, rfl, [], (append_nil _).symm, by simp⟩

end NoxClassic.Storage
