/-
# The reads of one client

A read is a chain of messages: the request is posted, running it posts the next
one, and the last is the answer.  Each of them carries the callback, so the
messages on the way to one client's answer can be told from all others, and no
other step posts or takes one of them.
-/

import NoxClassic.Storage.Change

namespace NoxClassic.Storage

open List Rings Option

open Lib (OrdMap)

/-- The messages on the way to the answer of a read with the callback `cb`. -/
def pending (cb : ℕ) (ms : List Msg) : List Msg := ms.filter fun m => m.reader = some cb

variable {digest : List UInt8 → GUID} {table : Table} {s : Rings} {cb : ℕ}

@[simp] theorem pending_append (ms ms' : List Msg) :
    pending cb (ms ++ ms') = pending cb ms ++ pending cb ms' := filter_append ms ms'

theorem pending_of_forall {ms : List Msg} (h : ∀ m ∈ ms, m.reader ≠ some cb) : pending cb ms = [] :=
  filter_eq_nil_iff.2 fun m hm => by simp [h m hm]

@[simp] theorem pending_invocations (ts : TriggerMap ℕ) (row : Row) (reason : TriggerReason) :
    pending cb (invocations ts row reason) = [] := by
  refine pending_of_forall fun m hm => ?_
  obtain ⟨t, -, rfl⟩ := mem_map.1 hm
  nofun

variable {m : Msg}

theorem pending_post_one (h : m.reader ≠ some cb) :
    pending cb (s.post [m]).queue = pending cb s.queue := by
  have hm : pending cb [m] = [] := pending_of_forall fun m' hm' => mem_singleton.1 hm' ▸ h
  rw [post_queue, pending_append, hm, append_nil]

variable {row : Row} {reason : TriggerReason}

/-- Messages are posted, none of them for a read, and the indices are left alone. -/
structure Posts (s s' : Rings) : Prop where
  queue : ∃ ms, s'.queue = s.queue ++ ms ∧ ∀ m ∈ ms, m.reader = none
  indexDhts : s'.indexDhts = s.indexDhts

theorem Posts.one {content : OrdMap GUID ContentEntry} (h : m.reader = none) :
    Posts s ({ s with content }.post [m]) :=
  ⟨⟨[m], rfl, fun _ hm => mem_singleton.1 hm ▸ h⟩, rfl⟩

theorem Posts.pending_eq {s' : Rings} (h : Posts s s') :
    pending cb s'.queue = pending cb s.queue := by
  obtain ⟨ms, hq, hms⟩ := h.queue
  have hnone : pending cb ms = [] := pending_of_forall fun m hm => by rw [hms m hm]; nofun
  rw [hq, pending_append, hnone, append_nil]

theorem reader_of_mem_invocations {ts : TriggerMap ℕ}
    (h : m ∈ invocations ts row reason) : m.reader = none := by
  obtain ⟨t, -, rfl⟩ := mem_map.1 h
  rfl

/-- The way every change is made. -/
theorem Posts.change {updates : List Msg} (hu : ∀ m ∈ updates, m.reader = none)
    {content : OrdMap GUID ContentEntry} {reply : Msg} (hr : reply.reader = none) :
    Posts s ({ (s.post updates).invokeTableTriggers row reason with content }.post [reply]) := by
  refine ⟨⟨updates ++ (invocations s.stickyTableTriggers row reason ++
    invocations s.nonstickyTableTriggers row reason) ++ [reply], ?_, fun m hm => ?_⟩, rfl⟩
  · simp only [invokeTableTriggers, post, append_assoc]
  simp only [mem_append, mem_singleton] at hm
  rcases hm with (hm | hm | hm) | rfl
  · exact hu m hm
  · exact reader_of_mem_invocations hm
  · exact reader_of_mem_invocations hm
  · exact hr

theorem posts_put {random : GUID} {cb : ℕ} {r : Result × Rings}
    (h : s.put digest table row random cb = some r) : Posts s r.2 := by
  unfold put at h
  split at h
  · cases h
    exact .one rfl
  obtain ⟨sguids, -, rfl⟩ := map_eq_some_iff.1 h
  simp only [contentPut, ContentEntry.put]
  split
  · split
    · split
      · exact .one rfl
      · refine .change (fun m hm => ?_) rfl
        rcases mem_append.1 hm with hm | hm
        · obtain ⟨i, -, rfl⟩ := mem_map.1 hm
          rfl
        · exact reader_of_mem_invocations hm
    · exact .one rfl
  · exact .one rfl

theorem posts_modify {ctxt : Context} {r : Result × Rings}
    (h : s.modify digest table ctxt row cb = some r) : Posts s r.2 := by
  unfold Rings.modify at h
  split at h
  · cases h
    exact .one rfl
  obtain ⟨sguids, -, rfl⟩ := map_eq_some_iff.1 h
  split
  · simp only [contentModify, ContentEntry.modify]
    split
    · exact .one rfl
    split
    · exact .one rfl
    · refine .change (fun m hm => ?_) rfl
      rcases mem_append.1 hm with hm | hm
      · obtain ⟨i, -, hm⟩ := mem_flatMap.1 hm
        rcases ContentEntry.mem_indexUpdates hm with rfl | ⟨prev, rfl⟩ | rfl <;> rfl
      · exact reader_of_mem_invocations hm
  · exact .one rfl

theorem posts_internalRemove (ref : Reference) (cb : Option ℕ) :
    Posts s (s.internalRemove ref cb).2 := by
  simp only [internalRemove, ContentEntry.remove]
  split
  · exact .one rfl
  split
  · exact .one rfl
  · refine .change (fun m hm => ?_) rfl
    rcases mem_append.1 hm with hm | hm
    · exact reader_of_mem_invocations hm
    · obtain ⟨i, -, rfl⟩ := mem_map.1 hm
      rfl

@[simp] theorem pending_entryUpdated (ref : RowReference) (index : String) (sguid : GUID)
    (tdef : Option (TriggerId × PrimaryDeleted)) :
    pending cb [.entryUpdated ref index sguid tdef] = [] := rfl

theorem pending_indexPut (index : String) (sguid : GUID) (ref : RowReference) (row : Row)
    (reason : TriggerReason) :
    pending cb (s.indexPut index sguid ref row reason).queue = pending cb s.queue := by
  simp [indexPut, IndexEntry.put, IndexEntry.installTrigger, setIndex]

/-- Running a message posts something for a read only if it was on the way to its answer. -/
theorem pending_handle (hm : m.reader ≠ some cb) :
    pending cb (s.handle m).queue = pending cb s.queue := by
  cases m with
  | indexPut index sguid ref row reason => exact pending_indexPut index sguid ref row reason
  | indexModify index sguid prevRef ref prevRow row reason =>
    simp only [handle, indexModify]
    split
    · exact pending_indexPut index sguid ref row reason
    · simp [IndexEntry.modify, IndexEntry.installTrigger, setIndex]
  | indexRemove index sguid ref row updated reason =>
    simp only [handle, indexRemove]
    have hnone : none ≠ some cb := (some_ne_none cb).symm
    split
    · exact pending_post_one hnone
    rename_i e he
    have hremove : pending cb (e.remove ref row reason).2 = [] := by
      refine pending_of_forall fun m hm => ?_
      unfold IndexEntry.remove at hm
      split at hm
      · exact absurd hm not_mem_nil
      · rcases mem_append.1 hm with hm | hm
        · rw [reader_of_mem_invocations hm]
          exact hnone
        · obtain ⟨t, -, rfl⟩ := mem_map.1 hm
          exact hnone
    simp [setIndex, hremove]
  | entryUpdated ref index sguid tdef =>
    simp only [handle, indexEntryUpdated]
    split <;> rfl
  | entryDeleted ref => exact (posts_internalRemove ref.toReference none).pending_eq
  | contentGet ctxt id exact cb' =>
    obtain ⟨m, he, hr, -⟩ := s.reads_contentGet ctxt id exact cb'
    rw [handle, he]
    exact pending_post_one (hr ▸ hm)
  | indexGet ctxt id cb' =>
    obtain ⟨m, he, hr, -⟩ := s.reads_indexGet ctxt id cb'
    rw [handle, he]
    exact pending_post_one (hr ▸ hm)
  | trigger | getReply | putReply | modifyReply | removeReply | putTriggerReply => rfl

theorem pending_putTrigger (ctxt : Context) (f cb' : ℕ) :
    pending cb (s.putTrigger table ctxt f cb').queue = pending cb s.queue := by
  have hreply : ∀ ring id currentRow nextTid ts,
      (putEntryTrigger ring id currentRow nextTid ts f cb').1.reader ≠ some cb := by
    intro ring id currentRow nextTid ts
    unfold putEntryTrigger
    split <;> nofun
  unfold putTrigger
  split
  all_goals
    split
    · exact pending_post_one nofun
    · exact pending_post_one (hreply _ _ _ _ _)

theorem pending_removeTrigger (tid : TriggerId) (cb' : ℕ) :
    pending cb (s.removeTrigger table tid cb').queue = pending cb s.queue := by
  unfold removeTrigger
  split
  · simp only
    split <;> exact pending_post_one nofun
  · split
    · exact pending_post_one nofun
    · split
      · exact pending_post_one nofun
      · split <;> exact pending_post_one nofun

/-- The callback of a request that reads. -/
def Act.reader : Act → Option ℕ
  | .get _ cb => some cb
  | .getNext _ cb => some cb
  | _ => none

/-- A request posts something for a read only if it is that read. -/
theorem pending_request {w w' : World} {a : Act} (ha : a.reader ≠ some cb) (hd : a ≠ .deliver)
    (hstep : w.step digest table a = some w') :
    pending cb w'.rings.queue = pending cb w.rings.queue := by
  cases a with
  | get query cb' =>
    obtain ⟨s', hs', rfl⟩ := map_eq_some_iff.1 hstep
    obtain ⟨m, rfl, hm, -⟩ := reads_get hs'
    exact pending_post_one (hm ▸ ha)
  | getNext ctxt cb' =>
    cases hstep
    obtain ⟨m, he, hm, -⟩ := w.rings.reads_getNext table ctxt cb'
    rw [World.after, he]
    exact pending_post_one (hm ▸ ha)
  | put row random cb' =>
    obtain ⟨r, hr, rfl⟩ := map_eq_some_iff.1 hstep
    exact (posts_put hr).pending_eq
  | modify ctxt row cb' =>
    obtain ⟨r, hr, rfl⟩ := map_eq_some_iff.1 hstep
    exact (posts_modify hr).pending_eq
  | remove ctxt cb' =>
    cases hstep
    exact (posts_internalRemove ctxt.currentRow (some cb')).pending_eq
  | putTrigger ctxt f cb' =>
    cases hstep
    exact pending_putTrigger ctxt f cb'
  | putTableTrigger sticky f cb' =>
    cases hstep
    cases sticky <;> exact pending_post_one nofun
  | removeTrigger tid cb' =>
    cases hstep
    exact pending_removeTrigger tid cb'
  | deliver => exact absurd rfl hd

end NoxClassic.Storage
