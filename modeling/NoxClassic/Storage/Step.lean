/-
# What a step of a run can be

`Next` lists the steps there are, in terms of rows, references, queue, operations
and contexts, and `World.next_of_step` says that every step is one of them.  The
invariants of the storage are proved by cases on it and never look into the rings.
-/

import NoxClassic.Storage.Change

namespace NoxClassic.Storage

open List Option Function

open Lib (OrdMap)

/-- The contexts handed out in the step are those of rows there were before it. -/
def HandsOut (w w' : World) : Prop :=
  ∃ new : List Context, w'.handed = w.handed ++ new.map (fun ctxt => (ctxt, w.ops.length)) ∧
    ∀ ctxt ∈ new, ∃ g c, w.rings.core g = some c ∧ ctxt.currentRow = c.id.toReference

/-- What a step does to the rings and the operations: a request from `s`, or the run of the
message `m` from `s`, the rings after it was taken off the queue. -/
inductive Effect (digest : List UInt8 → GUID) (table : Table) (s : Rings) (ops : List Op) :
    Option Msg → Act → Rings → List Op → Prop
  /-- A request that only reads, or is refused, or a trigger. -/
  | quiet {a s'} : Quiet s s' → Effect digest table s ops none a s' ops
  | put {row random cb sguids s'} : table.sguids digest row = some sguids →
      s.core (putGuid row random) = none →
      Changed s s' (update s.core (putGuid row random)
          (some ⟨⟨1, putGuid row random⟩, withGuid row random, sguids⟩))
        (sguids.entries.map fun i =>
          .indexPut i.1 i.2 ⟨1, putGuid row random⟩ (withGuid row random) .insert) →
      Effect digest table s ops none (.put row random cb) s'
        (.put (putGuid row random) (withGuid row random) :: ops)
  | modify {ctxt row cb sguids e s'} : table.sguids digest row = some sguids →
      s.content.find? ctxt.currentRow.guid = some e → e.id.matches ctxt.currentRow = true →
      Changed s s' (update s.core ctxt.currentRow.guid (some ⟨e.id.next, row, sguids⟩))
        (sguids.entries.flatMap fun i => e.indexUpdates row i.1 i.2) →
      Effect digest table s ops none (.modify ctxt row cb) s'
        (.modify ctxt.currentRow.guid row :: ops)
  | remove {ctxt cb e s'} : s.content.find? ctxt.currentRow.guid = some e →
      e.id.matches ctxt.currentRow = true →
      Changed s s' (update s.core ctxt.currentRow.guid none) e.indexRemovals →
      Effect digest table s ops none (.remove ctxt cb) s' (.remove ctxt.currentRow.guid :: ops)
  /-- A refused `remove` erases an empty row. -/
  | erase {ctxt cb e s'} : s.content.find? ctxt.currentRow.guid = some e →
      e.id.matches ctxt.currentRow = false → e.empty = true →
      Changed s s' (update s.core ctxt.currentRow.guid none) [] →
      Effect digest table s ops none (.remove ctxt cb) s' ops
  | deliver {m s'} : (∀ ref, m ≠ .entryDeleted ref) → Runs s m s' →
      Effect digest table s ops (some m) .deliver s' ops
  /-- The deletion callback finds nothing to do. -/
  | callback {ref s'} : Quiet s s' →
      Effect digest table s ops (some (.entryDeleted ref)) .deliver s' ops
  | callbackRemove {ref e s'} : s.content.find? ref.guid = some e → e.id = ref →
      Changed s s' (update s.core ref.guid none) e.indexRemovals →
      Effect digest table s ops (some (.entryDeleted ref)) .deliver s' ops
  | callbackErase {ref e s'} : s.content.find? ref.guid = some e → e.id ≠ ref → e.empty = true →
      Changed s s' (update s.core ref.guid none) [] →
      Effect digest table s ops (some (.entryDeleted ref)) .deliver s' ops

variable {a : Act} {m : Msg} {s s' : Rings} {e : ContentEntry} {r : Result × Rings} {cb : ℕ}

theorem Effect.act_eq {digest : List UInt8 → GUID} {table : Table} {ops ops' : List Op}
    (h : Effect digest table s ops (some m) a s' ops') : a = .deliver := by
  cases h <;> rfl

/-- **A step**: a request, or the delivery of the first message `m`. -/
inductive Next (digest : List UInt8 → GUID) (table : Table) (w : World) (a : Act) (w' : World) :
    Prop
  | request : Effect digest table w.rings w.ops none a w'.rings w'.ops → HandsOut w w' →
      Next digest table w a w'
  | delivery {m queue} : w.rings.queue = m :: queue →
      Effect digest table { w.rings with queue } w.ops (some m) a w'.rings w'.ops →
      HandsOut w w' → Next digest table w a w'

variable {digest : List UInt8 → GUID} {table : Table} {w w' : World}

theorem handsOut_after {queue ms : List Msg} (hq : s'.queue = queue ++ ms)
    (hms : ∀ m ∈ ms, ∀ ctxt, m.context = some ctxt →
      ∃ g c, w.rings.core g = some c ∧ ctxt.currentRow = c.id.toReference) :
    HandsOut w (w.after queue s') := by
  refine ⟨s'.newContexts queue, rfl, fun ctxt hctxt => ?_⟩
  rw [Rings.newContexts, hq, drop_left] at hctxt
  obtain ⟨m, hm, hc⟩ := mem_filterMap.1 hctxt
  exact hms m hm ctxt hc

theorem Quiet.handsOut (h : Quiet w.rings s') : HandsOut w (w.after w.rings.queue s') := by
  obtain ⟨ms, hq, hms⟩ := h.queue
  exact handsOut_after hq fun m hm => (hms m hm).context

theorem Changed.handsOut {core : GUID → Option Core} {updates : List Msg}
    (h : Changed s s' core updates) (hs : s.core = w.rings.core)
    (hu : ∀ m ∈ updates, m.context = none) : HandsOut w (w.after s.queue s') := by
  obtain ⟨-, -, ms1, ms2, hq, hms⟩ := h
  refine handsOut_after hq fun m hm ctxt hc => ?_
  rw [← hs]
  simp only [mem_append] at hm
  rcases hm with (hm | hm) | hm
  · exact (hms m (mem_append_left _ hm)).context ctxt hc
  · nomatch hc.symm.trans (hu m hm)
  · exact (hms m (mem_append_right _ hm)).context ctxt hc

theorem ContentEntry.context_indexRemovals (hm : m ∈ e.indexRemovals) : m.context = none := by
  obtain ⟨i, -, rfl⟩ := mem_map.1 hm
  rfl

/-- A request of which nothing comes but an answer. -/
theorem next_quiet (h : Quiet w.rings s') : Next digest table w a (w.after w.rings.queue s') :=
  .request (.quiet h) h.handsOut

theorem next_refused {op : Op} (hr : r.1.code ≠ .success) (hm : Inert w.rings.core m)
    (hs : r.2 = w.rings.post [m]) : Next digest table w a (w.afterOp op r) := by
  have hq : Quiet w.rings r.2 := hs ▸ Quiet.post_one hm
  refine .request ?_ hq.handsOut
  rw [World.afterOp, if_neg hr]
  exact .quiet hq

theorem next_put {row : Row} {random : GUID}
    (hr : w.rings.put digest table row random cb = some r) :
    Next digest table w (.put row random cb)
      (w.afterOp (.put (putGuid row random) (withGuid row random)) r) := by
  unfold Rings.put at hr
  split at hr
  · cases hr
    exact next_refused nofun (Inert.of_none rfl) rfl
  obtain ⟨sguids, hsguids, rfl⟩ := map_eq_some_iff.1 hr
  rcases w.rings.contentPut_cases sguids row random cb with ⟨hcode, m, hm, hs⟩ | ⟨hcode, hnone, hch⟩
  · exact next_refused hcode hm hs
  · refine .request ?_ (hch.handsOut rfl fun m hm => ?_)
    · rw [World.afterOp, if_pos hcode]
      exact .put hsguids hnone hch
    · obtain ⟨i, -, rfl⟩ := mem_map.1 hm
      rfl

theorem next_modify {ctxt : Context} {row : Row}
    (hr : w.rings.modify digest table ctxt row cb = some r) :
    Next digest table w (.modify ctxt row cb) (w.afterOp (.modify ctxt.currentRow.guid row) r) := by
  unfold Rings.modify at hr
  split at hr
  · cases hr
    exact next_refused nofun (Inert.of_none rfl) rfl
  obtain ⟨sguids, hsguids, rfl⟩ := map_eq_some_iff.1 hr
  split
  · rcases w.rings.contentModify_cases ctxt sguids row cb with ⟨hcode, -, hs⟩ |
      ⟨hcode, e, he, hmatch, hch⟩
    · exact next_refused (by rw [hcode]; nofun) (Inert.of_none rfl) hs
    · refine .request ?_ (hch.handsOut rfl fun m hm => ?_)
      · rw [World.afterOp, if_pos hcode]
        exact .modify hsguids he hmatch hch
      · obtain ⟨i, -, hm⟩ := mem_flatMap.1 hm
        rcases ContentEntry.mem_indexUpdates hm with rfl | ⟨prev, rfl⟩ | rfl <;> rfl
  · exact next_refused nofun (Inert.of_none rfl) rfl

theorem next_remove (ctxt : Context) (cb : ℕ) :
    Next digest table w (.remove ctxt cb)
      (w.afterOp (.remove ctxt.currentRow.guid) (w.rings.remove ctxt cb)) := by
  unfold Rings.remove
  rcases w.rings.internalRemove_cases ctxt.currentRow (some cb) with ⟨hcode, -, hs⟩ |
    ⟨hcode, e, he, hmatch, hch⟩ | ⟨hcode, e, he, hmatch, hempty, hch⟩
  · exact next_refused (by rw [hcode]; nofun) (Inert.of_none rfl) hs
  · refine .request ?_ (hch.handsOut rfl fun m hm => ContentEntry.context_indexRemovals hm)
    rw [World.afterOp, if_pos hcode]
    exact .remove he hmatch hch
  · refine .request ?_ (hch.handsOut rfl (forall_mem_nil _))
    rw [World.afterOp, if_neg (by rw [hcode]; nofun)]
    exact .erase he hmatch hempty hch

theorem next_deliver (hs : w.rings.deliver = some s') :
    Next digest table w .deliver (w.after w.rings.queue.tail s') := by
  unfold Rings.deliver at hs
  split at hs
  · nomatch hs
  rename_i m queue hqueue
  cases hs
  have htail : w.rings.queue.tail = queue := by rw [hqueue, tail_cons]
  rw [htail]
  by_cases hdel : ∃ ref, m = .entryDeleted ref
  · obtain ⟨ref, rfl⟩ := hdel
    rcases Rings.internalRemove_cases { w.rings with queue } ref.toReference none with
      ⟨-, -, hs⟩ | ⟨-, e, he, hmatch, hch⟩ | ⟨-, e, he, hmatch, hempty, hch⟩
    · have hq : Quiet { w.rings with queue } (Rings.handle { w.rings with queue }
          (.entryDeleted ref)) := by
        rw [Rings.handle, hs]
        exact Quiet.post_one (Inert.of_none rfl)
      obtain ⟨ms, hms, hinert⟩ := hq.queue
      exact .delivery hqueue (.callback hq) (handsOut_after hms fun m hm => (hinert m hm).context)
    · have hid := (RowReference.matches_toReference e.id ref).1 hmatch
      exact .delivery hqueue (.callbackRemove he hid hch)
        (hch.handsOut rfl fun m hm => ContentEntry.context_indexRemovals hm)
    · have hid : e.id ≠ ref := by
        rintro rfl
        rw [(RowReference.matches_toReference e.id e.id).2 rfl] at hmatch
        exact Bool.noConfusion hmatch
      exact .delivery hqueue (.callbackErase he hid hempty hch)
        (hch.handsOut rfl (forall_mem_nil _))
  · have hruns := Rings.runs_handle { w.rings with queue } fun ref he => hdel ⟨ref, he⟩
    obtain ⟨ms, hms, hcontext⟩ := hruns.queue
    exact .delivery hqueue (.deliver (fun ref he => hdel ⟨ref, he⟩) hruns)
      (handsOut_after hms fun m hm => (hcontext m hm).2.2)

/-- **Every step of the storage is one of the list.** -/
theorem World.next_of_step (hstep : w.step digest table a = some w') :
    Next digest table w a w' := by
  cases a with
  | get query cb =>
    obtain ⟨s', hs', rfl⟩ := map_eq_some_iff.1 hstep
    exact next_quiet (Rings.reads_get hs').quiet
  | getNext ctxt cb =>
    cases hstep
    exact next_quiet (w.rings.reads_getNext table ctxt cb).quiet
  | put row random cb =>
    obtain ⟨r, hr, rfl⟩ := map_eq_some_iff.1 hstep
    exact next_put hr
  | modify ctxt row cb =>
    obtain ⟨r, hr, rfl⟩ := map_eq_some_iff.1 hstep
    exact next_modify hr
  | remove ctxt cb =>
    cases hstep
    exact next_remove ctxt cb
  | putTrigger ctxt f cb =>
    cases hstep
    exact next_quiet (w.rings.quiet_putTrigger table ctxt f cb)
  | putTableTrigger sticky f cb =>
    cases hstep
    exact next_quiet (w.rings.quiet_putTableTrigger table sticky f cb)
  | removeTrigger tid cb =>
    cases hstep
    exact next_quiet (w.rings.quiet_removeTrigger table tid cb)
  | deliver =>
    obtain ⟨s', hs', rfl⟩ := map_eq_some_iff.1 hstep
    exact next_deliver hs'

end NoxClassic.Storage
