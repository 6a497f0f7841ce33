/-
# The steps that change rows and references

What `put`, `modify` and `remove` do to the content ring and which messages they
post for the indices, and what those messages do when they are run.  A request
that is refused leaves everything as it was but for its answer, with one
exception: `internal_remove` looks at `empty()` even when the entry's `remove`
has failed, and then erases a row whose content is empty.
-/

import NoxClassic.Storage.View

namespace NoxClassic.Storage

open Function List Rings IndexEntry Inert Option

open Lib (OrdMap)

variable {s : Rings}

/-! ### Messages to the indices -/

theorem Rings.refs_indexEntry (s : Rings) (index : String) (sguid : GUID) :
    (s.indexEntry index sguid).refs = s.refs index sguid := by
  unfold indexEntry refs
  cases (s.indexDhts index).find? sguid <;> rfl

/-- What running a message does, apart from the removal of a row: the references change as
`onRefs` says, and what is posted changes no references; a removal in it is one the
message was about. -/
structure Runs (s : Rings) (m : Msg) (s' : Rings) : Prop where
  core : s'.core = s.core
  refs : ∀ i g, s'.refs i g = m.onRefs i g (s.refs i g)
  queue : ∃ ms, s'.queue = s.queue ++ ms ∧ ∀ m' ∈ ms, (∀ i g refs, m'.onRefs i g refs = refs) ∧
    (∀ ref, m'.removes = some ref → m.removes = some ref) ∧
    ∀ ctxt, m'.context = some ctxt →
      ∃ g c, s.core g = some c ∧ ctxt.currentRow = c.id.toReference

variable {m : Msg} {s' : Rings} {reason : TriggerReason} {ref : RowReference}

theorem Runs.of_inert {ms : List Msg} (hcore : s'.core = s.core)
    (hrefs : ∀ i g, s'.refs i g = m.onRefs i g (s.refs i g)) (hq : s'.queue = s.queue ++ ms)
    (hms : ∀ m' ∈ ms, Inert s.core m') : Runs s m s' := by
  refine ⟨hcore, hrefs, ms, hq, fun m' hm' => ?_⟩
  obtain ⟨hr, ho, hc⟩ := hms m' hm'
  exact ⟨ho, fun ref hr' => absurd (hr'.symm.trans hr) (some_ne_none ref), hc⟩

theorem Quiet.runs (h : Quiet s s') (hm : ∀ i g refs, m.onRefs i g refs = refs) : Runs s m s' := by
  obtain ⟨ms, hq, hms⟩ := h.queue
  exact Runs.of_inert h.core (fun i g => by rw [h.refs, hm]) hq hms

variable {row : Row}

/-- The messages an index entry posts about a change. -/
theorem Inert.indexMsgs {core : GUID → Option Core} {ts : TriggerMap ℕ} {index : String}
    {sguid : GUID} {tdef : Option (TriggerId × PrimaryDeleted)}
    (h : m ∈ invocations ts row reason ++ [.entryUpdated ref index sguid tdef]) : Inert core m := by
  rcases mem_append.1 h with h | h
  · exact invocation h
  · obtain rfl := mem_singleton.1 h
    exact of_none rfl

theorem Rings.refs_indexPut (s : Rings) (index : String) (sguid : GUID) (ref : RowReference)
    (row : Row) (reason : TriggerReason) (i : String) (g : GUID) :
    (s.indexPut index sguid ref row reason).refs i g =
      if index = i ∧ sguid = g then s.refs i g ++ [ref] else s.refs i g := by
  simp only [indexPut, IndexEntry.put, IndexEntry.installTrigger, post_refs,
    refs_setIndex_insert, refs_indexEntry]
  split_ifs with h
  · rw [h.1, h.2]
  · rfl

theorem Rings.runs_indexModify (s : Rings) (index : String) (sguid : GUID)
    (prevRef ref : RowReference) (prevRow row : Row) (reason : TriggerReason) :
    Runs s (.indexModify index sguid prevRef ref prevRow row reason)
      (s.indexModify index sguid prevRef ref prevRow row reason) := by
  unfold indexModify
  split
  · -- no entry: the reference is put into a new one
    rename_i hnone
    have hrefs : s.refs index sguid = [] := by simp [refs, hnone]
    refine Runs.of_inert rfl (fun i g => ?_) rfl fun _ => indexMsgs
    rw [refs_indexPut, Msg.onRefs]
    split_ifs with h
    · rw [← h.1, ← h.2, hrefs]
      rfl
    · rfl
  · rename_i e he
    have hrefs : s.refs index sguid = e.refs := by simp [refs, he]
    refine Runs.of_inert rfl (fun i g => ?_) rfl fun _ => indexMsgs
    simp only [IndexEntry.modify, IndexEntry.installTrigger, post_refs,
      refs_setIndex_insert, Msg.onRefs]
    split_ifs with h
    · rw [← h.1, ← h.2, hrefs]
    · rfl

/-- `Index_DHT_entry::remove` takes the reference out, if it is there. -/
theorem IndexEntry.refs_remove (e : IndexEntry) (ref : RowReference) (row : Row)
    (reason : TriggerReason) : (e.remove ref row reason).1.refs = e.refs.erase ref := by
  unfold remove
  split
  · rename_i h
    rw [erase_of_not_mem h]
  · rfl

/-- What it posts: triggers, and the callback the row of the reference had left. -/
theorem IndexEntry.mem_remove {core : GUID → Option Core} {e : IndexEntry}
    (hm : m ∈ (e.remove ref row reason).2) : Inert core m ∨ m = .entryDeleted ref := by
  unfold remove at hm
  split at hm
  · nomatch hm
  · rcases mem_append.1 hm with hm | hm
    · exact .inl (invocation hm)
    · obtain ⟨t, ht, rfl⟩ := mem_map.1 hm
      exact .inr (congrArg Msg.entryDeleted (of_decide_eq_true (mem_filter.1 ht).2))

/-- An entry is erased only when it holds no references. -/
theorem Rings.refs_setIndex_erase_or_insert (s : Rings) (index : String) (sguid : GUID)
    (e : IndexEntry) (i : String) (g : GUID) :
    (s.setIndex index (if e.empty then (s.indexDhts index).erase sguid
        else (s.indexDhts index).insert sguid e)).refs i g =
      if index = i ∧ sguid = g then e.refs else s.refs i g := by
  split
  · rename_i he
    have hrefs : e.refs = [] := by
      simp only [empty, Bool.and_eq_true, List.isEmpty_iff] at he
      exact he.2
    simp only [refs_setIndex, OrdMap.find?_erase, ite_and, eq_comm (a := g), hrefs]
    split_ifs with hi <;> try subst hi
    all_goals rfl
  · exact s.refs_setIndex_insert index sguid e i g

theorem Rings.runs_indexRemove (s : Rings) (index : String) (sguid : GUID) (ref : RowReference)
    (row : Row) (updated : RowReference) (reason : TriggerReason) :
    Runs s (.indexRemove index sguid ref row updated reason)
      (s.indexRemove index sguid ref row updated reason) := by
  have hupdated : Inert s.core (.entryUpdated updated index sguid none) := of_none rfl
  unfold indexRemove
  split
  · rename_i hnone
    have hrefs : s.refs index sguid = [] := by simp [refs, hnone]
    refine Runs.of_inert rfl (fun i g => ?_) rfl fun _ hm => mem_singleton.1 hm ▸ hupdated
    rw [post_refs, Msg.onRefs]
    split_ifs with h
    · rw [← h.1, ← h.2, hrefs]
      rfl
    · rfl
  · rename_i e he
    have hrefs : s.refs index sguid = e.refs := by simp [refs, he]
    refine ⟨rfl, fun i g => ?_,
      (e.remove ref row reason).2 ++ [.entryUpdated updated index sguid none], rfl,
      fun m' hm' => ?_⟩
    · simp only [post_refs, refs_setIndex_erase_or_insert, refs_remove,
        Msg.onRefs]
      split_ifs with h
      · rw [← h.1, ← h.2, hrefs]
      · rfl
    · have hcases : Inert s.core m' ∨ m' = .entryDeleted ref := by
        rcases mem_append.1 hm' with hm' | hm'
        · exact mem_remove hm'
        · exact .inl (mem_singleton.1 hm' ▸ hupdated)
      rcases hcases with ⟨hr, ho, hc⟩ | rfl
      · exact ⟨ho, fun ref hr' => absurd (hr'.symm.trans hr) (some_ne_none ref), hc⟩
      · exact ⟨fun _ _ _ => rfl, fun _ h => h, fun ctxt h => by cases h⟩

/-- **Running a message.**  All but the deletion callback leave the rows alone. -/
theorem Rings.runs_handle (s : Rings) (hm : ∀ ref, m ≠ .entryDeleted ref) :
    Runs s m (s.handle m) := by
  have hquiet : Quiet s s := ⟨rfl, rfl, [], (append_nil _).symm, by simp⟩
  cases m with
  | indexPut index sguid ref row reason =>
    exact .of_inert rfl (s.refs_indexPut index sguid ref row reason) rfl fun _ => indexMsgs
  | indexModify index sguid prevRef ref prevRow row reason =>
    exact s.runs_indexModify index sguid prevRef ref prevRow row reason
  | indexRemove index sguid ref row updated reason =>
    exact s.runs_indexRemove index sguid ref row updated reason
  | entryUpdated ref index sguid tdef =>
    exact (s.quiet_indexEntryUpdated ref index sguid tdef).runs fun _ _ _ => rfl
  | entryDeleted ref => exact absurd rfl (hm ref)
  | contentGet ctxt id exact cb =>
    exact (s.reads_contentGet ctxt id exact cb).quiet.runs fun _ _ _ => rfl
  | indexGet ctxt id cb => exact (s.reads_indexGet ctxt id cb).quiet.runs fun _ _ _ => rfl
  | trigger | getReply | putReply | modifyReply | removeReply | putTriggerReply =>
    exact hquiet.runs fun _ _ _ => rfl

/-! ### Rows -/

theorem Rings.core_of_find? {g : GUID} {e : ContentEntry} (he : s.content.find? g = some e) :
    s.core g = some e.core := by
  rw [core, he]
  rfl

/-- The rows changed to `core`, the references did not, and the messages `updates` were posted
among others that are inert. -/
structure Changed (s s' : Rings) (core : GUID → Option Core) (updates : List Msg) : Prop where
  core : s'.core = core
  refs : s'.refs = s.refs
  queue : ∃ ms₁ ms₂, s'.queue = s.queue ++ (ms₁ ++ updates ++ ms₂) ∧
    ∀ m ∈ ms₁ ++ ms₂, Inert s.core m

/-- The way every change is made: messages are posted, the table's triggers invoked, the content
ring updated and the request answered. -/
theorem Changed.of_post (ms₁ ms₂ : List Msg) {posted updates : List Msg} {reply : Msg}
    {content : OrdMap GUID ContentEntry} {core : GUID → Option Core}
    (hcore : Rings.core { s with content } = core) (hposted : posted = ms₁ ++ updates ++ ms₂)
    (hms : ∀ m ∈ ms₁ ++ ms₂, Inert s.core m) (hreply : Inert s.core reply) :
    Changed s ({ (s.post posted).invokeTableTriggers row reason with content }.post [reply]) core
      updates := by
  subst hposted
  refine ⟨hcore, rfl, ms₁, ms₂ ++ (invocations s.stickyTableTriggers row reason ++
    invocations s.nonstickyTableTriggers row reason) ++ [reply], ?_, fun m hm => ?_⟩
  · simp only [invokeTableTriggers, post, append_assoc]
  simp only [mem_append, mem_singleton] at hm
  rcases hm with hm | (hm | hm | hm) | rfl
  · exact hms m (mem_append_left _ hm)
  · exact hms m (mem_append_right _ hm)
  · exact invocation hm
  · exact invocation hm
  · exact hreply

theorem Rings.core_insert (s : Rings) (g : GUID) (e : ContentEntry) :
    core { s with content := s.content.insert g e } = update s.core g (some e.core) := by
  funext l
  simp only [core, OrdMap.find?_insert, update_apply]
  split <;> rfl

theorem Rings.core_erase (s : Rings) (g : GUID) :
    core { s with content := s.content.erase g } = update s.core g none := by
  funext l
  simp only [core, OrdMap.find?_erase, update_apply]
  split <;> rfl

/-- **`put` stores a new row at version 1, or refuses.** -/
theorem Rings.contentPut_cases (s : Rings) (sguids : OrdMap String GUID) (row : Row)
    (random : GUID) (cb : ℕ) :
    ((s.contentPut sguids row random cb).1.code ≠ .success ∧
      ∃ m, Inert s.core m ∧ (s.contentPut sguids row random cb).2 = s.post [m]) ∨
    ((s.contentPut sguids row random cb).1.code = .success ∧ s.core (putGuid row random) = none ∧
      Changed s (s.contentPut sguids row random cb).2
        (update s.core (putGuid row random)
          (some ⟨⟨1, putGuid row random⟩, withGuid row random, sguids⟩))
        (sguids.entries.map fun i =>
          .indexPut i.1 i.2 ⟨1, putGuid row random⟩ (withGuid row random) .insert)) := by
  unfold contentPut
  simp only
  split
  · rename_i g hg
    have hput : putGuid row random = g := by
      rw [putGuid, hg]
    rw [hput]
    split
    · rename_i hnone
      have hmatch : (⟨0, g⟩ : RowReference).matches ⟨0, g, false⟩ = true :=
        (RowReference.matches_toReference ⟨0, g⟩ ⟨0, g⟩).2 rfl
      simp only [ContentEntry.put, hmatch, Bool.not_true, Bool.false_eq_true, if_false]
      refine .inr ⟨rfl, by rw [core, hnone]; rfl, ?_⟩
      exact Changed.of_post [] (invocations _ _ _) (s.core_insert g _) rfl
        (fun m hm => invocation hm) (of_none rfl)
    · exact .inl ⟨by simp [Result.concurrent], _, of_none rfl, rfl⟩
  · exact .inl ⟨by simp, _, of_none rfl, rfl⟩

/-- **`modify` stores the next version of the row, or refuses.** -/
theorem Rings.contentModify_cases (s : Rings) (ctxt : Context) (sguids : OrdMap String GUID)
    (row : Row) (cb : ℕ) :
    ((s.contentModify ctxt sguids row cb).1.code = .concurrentModification ∧
      (∀ e, s.content.find? ctxt.currentRow.guid = some e → e.id.matches ctxt.currentRow = false) ∧
      (s.contentModify ctxt sguids row cb).2 =
        s.post [.modifyReply cb (s.contentModify ctxt sguids row cb).1 ctxt]) ∨
    ((s.contentModify ctxt sguids row cb).1.code = .success ∧
      ∃ e, s.content.find? ctxt.currentRow.guid = some e ∧ e.id.matches ctxt.currentRow = true ∧
        Changed s (s.contentModify ctxt sguids row cb).2
          (update s.core ctxt.currentRow.guid (some ⟨e.id.next, row, sguids⟩))
          (sguids.entries.flatMap fun i => e.indexUpdates row i.1 i.2)) := by
  unfold contentModify
  split
  · rename_i hnone
    refine .inl ⟨rfl, fun e he => ?_, rfl⟩
    nomatch he.symm.trans hnone
  · rename_i e he
    by_cases hmatch : e.id.matches ctxt.currentRow = true
    · simp only [ContentEntry.modify, hmatch, Bool.not_true, Bool.false_eq_true, if_false]
      refine .inr ⟨rfl, e, he, hmatch, ?_⟩
      exact Changed.of_post [] (invocations _ _ _) (s.core_insert _ _) rfl
        (fun m hm => invocation hm) (of_none rfl)
    · rw [Bool.not_eq_true] at hmatch
      simp only [ContentEntry.modify, hmatch, Bool.not_false, if_true, OrdMap.insert_of_find? he]
      refine .inl ⟨rfl, fun e' he' => ?_, trivial⟩
      obtain rfl := some.inj (he.symm.trans he')
      exact hmatch

/-- The messages that take a row out of the indices. -/
def ContentEntry.indexRemovals (e : ContentEntry) : List Msg :=
  e.sguids.entries.map fun i => .indexRemove i.1 i.2 e.id e.row e.id.next .remove

/-- **`internal_remove` takes the row out, or refuses; or it refuses and erases an empty
row.** -/
theorem Rings.internalRemove_cases (s : Rings) (ref : Reference) (cb : Option ℕ) :
    ((s.internalRemove ref cb).1.code = .concurrentModification ∧
      (∀ e, s.content.find? ref.guid = some e → e.id.matches ref = false ∧ e.empty = false) ∧
      (s.internalRemove ref cb).2 = s.post [.removeReply cb (s.internalRemove ref cb).1]) ∨
    ((s.internalRemove ref cb).1.code = .success ∧
      ∃ e, s.content.find? ref.guid = some e ∧ e.id.matches ref = true ∧
        Changed s (s.internalRemove ref cb).2 (update s.core ref.guid none) e.indexRemovals) ∨
    ((s.internalRemove ref cb).1.code = .concurrentModification ∧
      ∃ e, s.content.find? ref.guid = some e ∧ e.id.matches ref = false ∧ e.empty = true ∧
        Changed s (s.internalRemove ref cb).2 (update s.core ref.guid none) []) := by
  unfold internalRemove
  split
  · rename_i hnone
    refine .inl ⟨rfl, fun e he => ?_, rfl⟩
    nomatch he.symm.trans hnone
  · rename_i e he
    by_cases hmatch : e.id.matches ref = true
    · simp only [ContentEntry.remove, hmatch, Bool.not_true, Bool.false_eq_true, if_false,
        ContentEntry.empty, isEmpty_nil, AList.empty_entries, Bool.and_self, if_true]
      refine .inr (.inl ⟨rfl, e, he, hmatch, ?_⟩)
      refine Changed.of_post (invocations _ _ _) [] (s.core_erase _) (append_nil _).symm
        (fun m hm => ?_) (of_none rfl)
      rw [append_nil] at hm
      exact invocation hm
    · rw [Bool.not_eq_true] at hmatch
      simp only [ContentEntry.remove, hmatch, Bool.not_false, if_true]
      cases hempty : e.empty with
      | true =>
        refine .inr (.inr ⟨rfl, e, he, hmatch, hempty, s.core_erase _, rfl, [], [_], rfl, ?_⟩)
        intro m hm
        obtain rfl := mem_singleton.1 hm
        exact of_none rfl
      | false =>
        simp only [Bool.false_eq_true, if_false, OrdMap.insert_of_find? he]
        refine .inl ⟨rfl, fun e' he' => ?_, trivial⟩
        obtain rfl := some.inj (he.symm.trans he')
        exact ⟨hmatch, hempty⟩

end NoxClassic.Storage
