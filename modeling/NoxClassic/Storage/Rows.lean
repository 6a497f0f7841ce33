/-
# No callback destroys a row

The content ring should hold what the successful operations of the clients made
of it.  Besides them only `index_entry_deleted_callback` changes it: an index entry
that loses a reference runs the callback its row had left there, and the row goes
if it still has that version.

While GUIDs are not used again this is harmless, since versions of a row only
grow.  A new `put` of a removed GUID starts at version 1 again, though, and a
callback still in the queue then takes the new row for the old one
(`reinserted_row_destroyed`).  Rows stored by `modify` without any column are lost
in another way: `internal_remove` erases an entry that is `empty()` although its
version did not match.
-/

import NoxClassic.Storage.Step

namespace NoxClassic.Storage

open Function List Option Rings Lib

/-- The rows of the content ring by their GUIDs. -/
def Rings.rows (s : Rings) (g : GUID) : Option Row := (s.core g).map Core.row

/-- What a client operation means for the rows. -/
def Op.apply (rows : GUID → Option Row) : Op → GUID → Option Row
  | .put guid row => update rows guid (some row)
  | .modify guid row => update rows guid (some row)
  | .remove guid => update rows guid none

/-- The operations, the newest first, applied to an empty table. -/
def applied (ops : List Op) : GUID → Option Row :=
  ops.foldr (fun op rows => op.apply rows) fun _ => none

/-- The next version of a row is not one that a queued `Index_DHT::remove` or
`index_entry_deleted_callback` refers to, and it has a column. -/
def unmarked (s : Rings) : Act → Bool
  | .put row random _ => (s.core (putGuid row random)).isSome ||
      s.queue.all fun m => m.removes ≠ some ⟨1, putGuid row random⟩
  | .modify ctxt row _ => (s.core ctxt.currentRow.guid).all fun c =>
    !c.id.matches ctxt.currentRow ||
      (!row.entries.isEmpty && s.queue.all fun m => m.removes ≠ some c.id.next)
  | _ => true

variable {s s' : Rings}

variable {cb : ℕ} {g : GUID} {o : Option Core} {e : ContentEntry} {a : Act}
    {digest : List UInt8 → GUID}

theorem not_removes_of_unmarked_modify {ctxt : Context} {row : Row} {c : Core}
    (h : unmarked s (.modify ctxt row cb) = true) (hc : s.core ctxt.currentRow.guid = some c)
    (hmatch : c.id.matches ctxt.currentRow = true) :
    row.entries ≠ [] ∧ ∀ m ∈ s.queue, m.removes ≠ some c.id.next := by
  simpa [unmarked, hc, hmatch] using h

/-- No row has a version that a queued message is about to remove. -/
structure RowsInv (s : Rings) : Prop where
  keyed : ∀ g c, s.core g = some c → c.id.guid = g
  nonempty : ∀ g c, s.core g = some c → c.row.entries ≠ []
  pending : ∀ m ∈ s.queue, ∀ ref, m.removes = some ref → ∀ c, s.core ref.guid = some c →
    c.id ≠ ref

theorem RowsInv.initial : RowsInv initial where
  keyed := by simp [Rings.core, Rings.initial]
  nonempty := by simp [Rings.core, Rings.initial]
  pending := by simp [Rings.initial]

/-- Rows stay, and what is posted removes only what was queued for removal. -/
theorem RowsInv.of_core_eq (h : RowsInv s) (hcore : s'.core = s.core)
    (hqueue : ∀ m ∈ s'.queue, ∀ ref, m.removes = some ref →
      ∃ m' ∈ s.queue, m'.removes = some ref) : RowsInv s' where
  keyed := hcore ▸ h.keyed
  nonempty := hcore ▸ h.nonempty
  pending := by
    intro m hm ref hr c hc
    obtain ⟨m', hm', hr'⟩ := hqueue m hm ref hr
    exact h.pending m' hm' ref hr' c (hcore ▸ hc)

theorem RowsInv.quiet (h : RowsInv s) (hq : Quiet s s') : RowsInv s' := by
  obtain ⟨ms, hqueue, hms⟩ := hq.queue
  refine h.of_core_eq hq.core fun m hm ref hr => ?_
  rcases mem_append.1 (hqueue ▸ hm) with hm | hm
  · exact ⟨m, hm, hr⟩
  · nomatch hr.symm.trans (hms m hm).removes

/-- A change of one row. -/
theorem RowsInv.changed (h : RowsInv s) {updates : List Msg}
    (hch : Changed s s' (update s.core g o) updates)
    (hkeyed : ∀ c, o = some c → c.id.guid = g) (hrow : ∀ c, o = some c → c.row.entries ≠ [])
    (hold : ∀ c, o = some c → ∀ m ∈ s.queue, m.removes ≠ some c.id)
    (hnew : ∀ m ∈ updates, ∀ ref, m.removes = some ref → ref.guid = g ∧
      ∀ c, o = some c → c.id ≠ ref) : RowsInv s' := by
  obtain ⟨hcore, -, ms1, ms2, hqueue, hms⟩ := hch
  refine ⟨fun l c hc => ?_, fun l c hc => ?_, fun m hm ref hr c hc => ?_⟩
  · rw [hcore, update_apply] at hc
    split_ifs at hc with hl
    · exact (hkeyed c hc).trans hl.symm
    · exact h.keyed l c hc
  · rw [hcore, update_apply] at hc
    split at hc
    · exact hrow c hc
    · exact h.nonempty l c hc
  · rw [hcore, update_apply] at hc
    simp only [hqueue, mem_append] at hm
    rcases hm with hm | (hm | hm) | hm
    · split at hc
      · intro he
        exact hold c hc m hm (he ▸ hr)
      · exact h.pending m hm ref hr c hc
    · exact absurd (hr.symm.trans (hms m (mem_append_left _ hm)).removes) nofun
    · obtain ⟨hg, hne⟩ := hnew m hm ref hr
      rw [if_pos hg] at hc
      exact hne c hc
    · exact absurd (hr.symm.trans (hms m (mem_append_right _ hm)).removes) nofun

/-- The messages `modify` posts remove the version it replaces. -/
theorem ContentEntry.removes_indexUpdates {row : Row} {index : String}
    {sguid : GUID} {m : Msg} (hm : m ∈ e.indexUpdates row index sguid) {ref : RowReference}
    (hr : m.removes = some ref) : ref = e.id := by
  rcases mem_indexUpdates hm with rfl | ⟨prev, rfl⟩ | rfl
  · nomatch hr
  · exact (some.inj hr).symm
  · nomatch hr

/-- A row that is not empty is not erased by a removal that is refused. -/
theorem RowsInv.not_empty (h : RowsInv s) (he : s.content.find? g = some e) : e.empty = false := by
  have hrow := h.nonempty g e.core (core_of_find? he)
  have hentries : e.row.entries.isEmpty = false := by
    rw [Bool.eq_false_iff]
    exact fun hempty => hrow (isEmpty_iff.1 hempty)
  rw [ContentEntry.empty, hentries, Bool.and_false]

theorem Rings.rows_update (h : s'.core = update s.core g o) :
    s'.rows = update s.rows g (o.map Core.row) := by
  funext l
  rw [rows, h, update_apply, update_apply]
  split <;> rfl

theorem Rings.rows_congr (h : s'.core = s.core) : s'.rows = s.rows := by
  funext g
  rw [rows, rows, h]

/-- **One step keeps the rows in line with the operations.**  A message that is run is not about
to remove a row. -/
theorem RowsInv.effect {table : Table} {ops ops' : List Op}
    {o : Option Msg} (h : RowsInv s) (hrows : s.rows = applied ops)
    (ho : ∀ m ref, o = some m → m.removes = some ref → ∀ c, s.core ref.guid = some c → c.id ≠ ref)
    (hC : unmarked s a = true) (heff : Effect digest table s ops o a s' ops') :
    RowsInv s' ∧ s'.rows = applied ops' := by
  cases heff with
  | quiet hq | callback hq => exact ⟨h.quiet hq, (rows_congr hq.core).trans hrows⟩
  | put _ hnone hch =>
    refine ⟨h.changed hch ?_ ?_ ?_ ?_, (rows_update hch.core).trans (by rw [hrows]; rfl)⟩
    · rintro c hc
      rw [← some.inj hc]
    · rintro c hc
      rw [← some.inj hc]
      unfold withGuid
      split
      · exact cons_ne_nil _ _
      · exact ne_nil_of_mem (AList.mem_lookup_iff.1 ‹_›)
    · rintro c hc
      rw [← some.inj hc]
      simpa [unmarked, hnone] using hC
    · intro m hm ref href
      obtain ⟨i, -, rfl⟩ := mem_map.1 hm
      exact absurd href nofun
  | modify hs he hmatch hch =>
    rename_i e
    have hcore := core_of_find? he
    obtain ⟨hrow, hpending⟩ := not_removes_of_unmarked_modify hC hcore hmatch
    have hguid := h.keyed _ _ hcore
    refine ⟨h.changed hch ?_ ?_ ?_ ?_, (rows_update hch.core).trans (by rw [hrows]; rfl)⟩
    · rintro c hc
      rw [← some.inj hc]
      exact hguid
    · rintro c hc
      rw [← some.inj hc]
      exact hrow
    · rintro c hc
      rw [← some.inj hc]
      exact hpending
    · intro m hm ref href
      obtain ⟨i, -, hm⟩ := mem_flatMap.1 hm
      obtain rfl := ContentEntry.removes_indexUpdates hm href
      refine ⟨hguid, fun c hc => ?_⟩
      rw [← some.inj hc]
      exact e.id.next_ne
  | remove he _ hch =>
    refine ⟨h.changed hch nofun nofun nofun ?_, (rows_update hch.core).trans (by rw [hrows]; rfl)⟩
    intro m hm ref href
    obtain ⟨i, -, rfl⟩ := mem_map.1 hm
    cases href
    exact ⟨h.keyed _ _ (core_of_find? he), nofun⟩
  | erase he _ hempty | callbackErase he _ hempty =>
    exact absurd (hempty.symm.trans (h.not_empty he)) Bool.true_eq_false_eq_False
  | deliver hm hruns =>
    rename_i m
    obtain ⟨ms, hq, hms⟩ := hruns.queue
    refine ⟨⟨hruns.core ▸ h.keyed, hruns.core ▸ h.nonempty, ?_⟩,
      (rows_congr hruns.core).trans hrows⟩
    intro m' hm' ref hr c hc
    rw [hruns.core] at hc
    rcases mem_append.1 (hq ▸ hm') with hm' | hm'
    · exact h.pending m' hm' ref hr c hc
    · exact ho m ref rfl ((hms m' hm').2.1 ref hr) c hc
  | callbackRemove he hid _ =>
    exact absurd hid (ho _ _ rfl rfl _ (core_of_find? he))

/-- The rows are what the successful operations made them, and will stay so. -/
structure StoreInv (w : World) : Prop where
  inv : RowsInv w.rings
  rows : w.rings.rows = applied w.ops

theorem StoreInv.initial : StoreInv World.initial := ⟨RowsInv.initial, rfl⟩

theorem StoreInv.step {table : Table} {w w' : World} (h : StoreInv w)
    (hC : unmarked w.rings a = true) (hstep : w.step digest table a = some w') : StoreInv w' := by
  cases World.next_of_step hstep with
  | request heff _ =>
    obtain ⟨hinv, hrows⟩ := h.inv.effect h.rows
      (fun m _ ho => absurd ho.symm (some_ne_none m)) hC heff
    exact ⟨hinv, hrows⟩
  | delivery hqueue heff hout =>
    rename_i m queue
    have h0 : RowsInv { w.rings with queue } :=
      h.inv.of_core_eq rfl fun m' hm' ref hr => ⟨m', hqueue ▸ mem_cons_of_mem m hm', hr⟩
    have hm : m ∈ w.rings.queue := hqueue ▸ mem_cons_self
    obtain rfl := heff.act_eq
    obtain ⟨hinv, hrows⟩ := h0.effect h.rows (fun m' ref ho hr => by
      cases ho
      exact h.inv.pending m hm ref hr) rfl heff
    exact ⟨hinv, hrows⟩

/-- **The content ring holds what the successful client operations made of it**, in every state
of a run in which no `put` or `modify` brings a row to a version that a queued removal
still names, and none stores an empty row. -/
theorem content_eq_applied (digest : List UInt8 → GUID) (table : Table) (as : List Act) (w : World)
    (hrun : run (World.step digest table) World.initial as = some w)
    (hC : Along (World.step digest table)
      (fun w a => unmarked w.rings a = true) World.initial as) :
    w.rings.rows = applied w.ops :=
  (run_invariant_of_along (fun _ _ _ h hC hs => StoreInv.step h hC hs) StoreInv.initial hC
    hrun).rows

/-! ### A table with one index -/

/-- A table with a text column and an index on it. -/
def nameTable : Table where
  name := "t"
  columns := (∅ : AList fun _ : String => ColumnType).insert "GUID" .guid |>.insert "name" .text
  indices := (∅ : AList fun _ : String => List String).insert "t_i" ["name"]
  guid_column := by decide +kernel
  index_names := by decide +kernel

/-- SHA-1 on the texts the examples use: none, `a` and `b`. -/
def sha1OfLetters (bytes : List UInt8) : GUID :=
  if bytes = [] then 0xda39a3ee5e6b4b0d3255bfef95601890afd80709
  else if bytes = [97] then 0x86f7e437faa5a7fce15d1ddcb9eaeaea377667b8
  else if bytes = [98] then 0xe9d71f5ee7c92d6dc9e92ffdad17b8bd49418f98
  else 0

/-- The row with the name `name` and the GUID 7. -/
def namedRow (name : String) : Row :=
  (∅ : Row).insert "GUID" (.guid 7) |>.insert "name" (.text name)

/-- The context of a version of that row. -/
def contextOf (version : ℤ) : Context :=
  { Context.empty with initialRow := ⟨version, 7, false⟩, currentRow := ⟨version, 7, false⟩ }

/-- A row is stored, renamed while its index entry is being made, and removed. -/
def renameAndRemove : List Act :=
  [.put (namedRow "a") 0 0, .modify (contextOf 1) (namedRow "b") 0, .deliver, .deliver, .deliver,
    .remove (contextOf 2) 0] ++ List.replicate 9 .deliver

/-- The hypotheses of `content_eq_applied` are satisfiable. -/
theorem content_eq_applied_renameAndRemove :
    ∃ w, run (World.step sha1OfLetters nameTable) World.initial renameAndRemove = some w ∧
      w.ops.length = 3 ∧ w.rings.rows = applied w.ops := by
  obtain ⟨w, hw, hops⟩ : ∃ w,
      run (World.step sha1OfLetters nameTable) World.initial renameAndRemove = some w ∧
        w.ops.length = 3 :=
    map_eq_some_iff.1 (by decide +kernel : (run (World.step sha1OfLetters nameTable)
      World.initial renameAndRemove).map (fun w => w.ops.length) = some 3)
  exact ⟨w, hw, hops, content_eq_applied sha1OfLetters nameTable renameAndRemove w hw
    (by decide +kernel)⟩

/-- A row is removed, and stored again under its GUID before the deletion callback runs. -/
def reinsert : List Act :=
  [.put (namedRow "a") 0 0, .deliver, .deliver, .deliver, .remove (contextOf 1) 0, .deliver,
    .put (namedRow "a") 0 0, .deliver, .deliver]

/-- **A deletion callback destroys a row that was stored after the one it was for.** -/
theorem reinserted_row_destroyed :
    ∃ w, run (World.step sha1OfLetters nameTable) World.initial reinsert = some w ∧
      w.rings.rows 7 = none ∧ applied w.ops 7 ≠ none := by
  obtain ⟨w, hw, he⟩ := map_eq_some_iff.1
    (by decide +kernel : (run (World.step sha1OfLetters nameTable) World.initial reinsert).map
      (fun w => ((w.rings.rows 7).isNone, (applied w.ops 7).isSome)) = some (true, true))
  obtain ⟨hrows, happlied⟩ := Prod.mk.inj he
  exact ⟨w, hw, isNone_iff_eq_none.1 hrows, ne_none_iff_isSome.2 happlied⟩

end NoxClassic.Storage
