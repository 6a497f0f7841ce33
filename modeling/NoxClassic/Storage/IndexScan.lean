/-
# Reading through an index

When the queue is empty the references under a secondary GUID are exactly those
of the rows that have it (`IndexInv.exact_refs`).  A client that asks with a query
and goes on with `get_next` until an answer is not a success then walks through
that list, and gets every such row once.

A table may have an index on no columns.  Its rows may have no columns either,
and such a row is erased by a `remove` that was refused, without a word to the
index (`erased_row_still_indexed`).
-/

import NoxClassic.Storage.Indices
import NoxClassic.Storage.Reads

namespace NoxClassic.Storage

open List Option Rings RowReference Bool Lib

variable {digest : List UInt8 → GUID} {table : Table} {s s' : Rings}

/-! ### Entries of an index are filed under their GUIDs -/

/-- Every index entry has the GUID it is found under. -/
def IndexKeyed (s : Rings) : Prop :=
  ∀ i g e, (s.indexDhts i).find? g = some e → e.id.guid = g

theorem IndexKeyed.initial : IndexKeyed initial :=
  nofun

theorem IndexKeyed.congr (h : IndexKeyed s) (hs : s'.indexDhts = s.indexDhts) : IndexKeyed s' := by
  unfold IndexKeyed
  rw [hs]
  exact h

variable {e : IndexEntry} {sguid : GUID} {w : World} {ref : RowReference} {columns : List String}
    {index : String}

theorem IndexKeyed.setIndex_insert (h : IndexKeyed s) (index : String) (he : e.id.guid = sguid) :
    IndexKeyed (s.setIndex index ((s.indexDhts index).insert sguid e)) := by
  intro i g e' he'
  simp only [setIndex, Function.update_apply] at he'
  split at he'
  · rw [OrdMap.find?_insert] at he'
    split at he'
    · rename_i hg
      rw [← some.inj he', hg, he]
    · exact h index g e' he'
  · exact h i g e' he'

theorem IndexKeyed.setIndex_erase (h : IndexKeyed s) (index : String) (sguid : GUID) :
    IndexKeyed (s.setIndex index ((s.indexDhts index).erase sguid)) := by
  intro i g e' he'
  simp only [setIndex, Function.update_apply] at he'
  split at he'
  · rw [OrdMap.find?_erase] at he'
    split at he'
    · exact absurd he'.symm (some_ne_none e')
    · exact h index g e' he'
  · exact h i g e' he'

theorem IndexKeyed.indexPut (h : IndexKeyed s) (index : String) (sguid : GUID) (ref : RowReference)
    (row : Row) (reason : TriggerReason) : IndexKeyed (s.indexPut index sguid ref row reason) := by
  have hid : ((s.indexEntry index sguid).put index ref row reason).1.id.guid = sguid := by
    unfold indexEntry
    cases he : (s.indexDhts index).find? sguid with
    | none => rfl
    | some e => exact h index sguid e he
  exact (h.setIndex_insert index hid).congr rfl

theorem IndexKeyed.handle (h : IndexKeyed s) (m : Msg) : IndexKeyed (s.handle m) := by
  cases m with
  | indexPut index sguid ref row reason => exact h.indexPut index sguid ref row reason
  | indexModify index sguid prevRef ref prevRow row reason =>
    simp only [Rings.handle, Rings.indexModify]
    split
    · exact h.indexPut index sguid ref row reason
    · rename_i e he
      have hid : (e.modify index prevRef ref prevRow row reason).1.id.guid = sguid :=
        h index sguid e he
      exact (h.setIndex_insert index hid).congr rfl
  | indexRemove index sguid ref row updated reason =>
    simp only [Rings.handle, Rings.indexRemove]
    split
    · exact h.congr rfl
    rename_i e he
    have hid : (e.remove ref row reason).1.id.guid = sguid := by
      unfold IndexEntry.remove
      split <;> exact h index sguid e he
    split
    · exact (h.setIndex_erase index sguid).congr rfl
    · exact (h.setIndex_insert index hid).congr rfl
  | entryUpdated ref index sguid tdef =>
    refine h.congr ?_
    simp only [Rings.handle, Rings.indexEntryUpdated]
    split <;> rfl
  | entryDeleted ref => exact h.congr (posts_internalRemove ref.toReference none).indexDhts
  | contentGet ctxt id exact cb =>
    obtain ⟨m, hm, -⟩ := s.reads_contentGet ctxt id exact cb
    exact h.congr (by rw [Rings.handle, hm]; rfl)
  | indexGet ctxt id cb =>
    obtain ⟨m, hm, -⟩ := s.reads_indexGet ctxt id cb
    exact h.congr (by rw [Rings.handle, hm]; rfl)
  | trigger | getReply | putReply | modifyReply | removeReply | putTriggerReply => exact h

theorem IndexKeyed.putTrigger (h : IndexKeyed s) (ctxt : Context) (f cb : ℕ) :
    IndexKeyed (s.putTrigger table ctxt f cb) := by
  unfold Rings.putTrigger
  split
  · exact h.congr (by split <;> rfl)
  split
  · exact h.congr rfl
  · refine (h.setIndex_insert ctxt.index ?_).congr rfl
    cases he : (s.indexDhts ctxt.index).find? ctxt.indexRow.guid with
    | none => rfl
    | some e => exact h ctxt.index ctxt.indexRow.guid e he

theorem IndexKeyed.removeTrigger (h : IndexKeyed s) (tid : TriggerId) (cb : ℕ) :
    IndexKeyed (s.removeTrigger table tid cb) := by
  unfold Rings.removeTrigger
  split
  · simp only
    split
    · exact h.congr rfl
    · rename_i e he
      refine (h.setIndex_insert tid.ring ?_).congr rfl
      exact h tid.ring tid.ref.guid e he
  · refine h.congr ?_
    split
    · rfl
    · split
      · rfl
      · split <;> rfl

theorem IndexKeyed.step {w' : World} {a : Act} (h : IndexKeyed w.rings)
    (hstep : w.step digest table a = some w') : IndexKeyed w'.rings := by
  cases a with
  | get query cb =>
    obtain ⟨s', hs', rfl⟩ := map_eq_some_iff.1 hstep
    obtain ⟨m, rfl, -⟩ := reads_get hs'
    exact h.congr rfl
  | getNext ctxt cb =>
    cases hstep
    obtain ⟨m, hm, -⟩ := w.rings.reads_getNext table ctxt cb
    exact h.congr (by rw [World.after, hm]; rfl)
  | put row random cb =>
    obtain ⟨r, hr, rfl⟩ := map_eq_some_iff.1 hstep
    exact h.congr (posts_put hr).indexDhts
  | modify ctxt row cb =>
    obtain ⟨r, hr, rfl⟩ := map_eq_some_iff.1 hstep
    exact h.congr (posts_modify hr).indexDhts
  | remove ctxt cb =>
    cases hstep
    exact h.congr (posts_internalRemove ctxt.currentRow (some cb)).indexDhts
  | putTrigger ctxt f cb =>
    cases hstep
    exact h.putTrigger ctxt f cb
  | putTableTrigger sticky f cb =>
    cases hstep
    exact h.congr (by cases sticky <;> rfl)
  | removeTrigger tid cb =>
    cases hstep
    exact h.removeTrigger tid cb
  | deliver =>
    obtain ⟨s', hs', rfl⟩ := map_eq_some_iff.1 hstep
    unfold deliver at hs'
    split at hs'
    · exact absurd hs'.symm (some_ne_none s')
    · rename_i m queue _
      cases hs'
      have h0 : IndexKeyed { w.rings with queue } := h
      exact h0.handle m

/-! ### A client that iterates -/

/-- The dispatcher runs messages until a client is answered. -/
def Rings.awaitReply : ℕ → Rings → Option (Result × Context × Row × Rings)
  | 0, _ => none
  | n + 1, s =>
    match s.queue with
    | [] => none
    | .getReply _ result ctxt row :: queue => some (result, ctxt, row, { s with queue })
    | m :: queue => Rings.awaitReply n ({ s with queue }.handle m)

/-- A client that waits for the answer to its request, at most three messages away, and calls
`get_next` with the context until an answer is not a success: the rows it gets, and the
last result. -/
def Rings.iterate (table : Table) : ℕ → Rings → Option (List (Reference × Row) × Result)
  | 0, _ => none
  | n + 1, s =>
    match s.awaitReply 3 with
    | none => none
    | some (result, ctxt, row, s) =>
      if result.code = .success then
        (Rings.iterate table n (s.getNext table ctxt 0)).map fun r =>
          ((ctxt.currentRow, row) :: r.1, r.2)
      else some ([], result)

section

variable (hq : s.queue = [])
include hq

theorem Rings.post_nil_queue (ms : List Msg) :
    s.post ms = { s with queue := ms } := by
  rw [post, hq, nil_append]

theorem Rings.with_queue_nil : { s with queue := [] } = s := by
  rw [← hq]

/-- A reply that is first in the queue. -/
theorem Rings.awaitReply_getReply (n cb : ℕ) (result : Result)
    (ctxt : Context) (row : Row) :
    (s.post [.getReply cb result ctxt row]).awaitReply (n + 1) = some (result, ctxt, row, s) := by
  rw [post_nil_queue hq, awaitReply]
  simp only [with_queue_nil hq]

/-- A row that is asked for by its reference. -/
theorem Rings.awaitReply_contentGet {e : ContentEntry}
    (he : s.content.find? e.id.guid = some e) (n cb : ℕ) (ctxt : Context) :
    (s.post [.contentGet ctxt e.id.toReference true cb]).awaitReply (n + 2) =
      some (.ok, { ctxt with initialRow := e.id.toReference, currentRow := e.id.toReference },
        e.row, s) := by
  have hmatch : e.id.matches e.id.toReference = true := (matches_toReference e.id e.id).2 rfl
  have hget : s.contentGet ctxt e.id.toReference true cb =
      s.post [.getReply cb .ok { ctxt with
        initialRow := e.id.toReference, currentRow := e.id.toReference } e.row] := by
    have hfind : s.content.find? e.id.toReference.guid = some e := he
    simp only [contentGet, if_true, hfind, ContentEntry.get, hmatch, Bool.not_true,
      Bool.false_and, Bool.false_eq_true, if_false]
  rw [post_nil_queue hq, awaitReply]
  simp only [with_queue_nil hq, handle]
  rw [hget, awaitReply_getReply hq]

end

/-- The references that follow the current one. -/
theorem IndexEntry.tail_dropWhile {pre rest : List RowReference}
    (hnodup : (pre ++ ref :: rest).Nodup) :
    ((pre ++ ref :: rest).dropWhile fun r => !r.matches ref.toReference).tail = rest := by
  have hpre : ∀ r ∈ pre, (!r.matches ref.toReference) = true := by
    intro r hr
    rw [not_eq_true', eq_false_iff, ne_eq, matches_toReference]
    rintro rfl
    exact (nodup_append.1 hnodup).2.2 r hr r mem_cons_self rfl
  have hself : ref.matches ref.toReference = true := (matches_toReference ref ref).2 rfl
  rw [dropWhile_append_of_pos hpre, dropWhile_cons_of_neg (by simp [hself]), tail_cons]

/-- What an index entry asks for: the row of the first of the references `refs`. -/
def askFor (ctxt : Context) (refs : List RowReference) (cb : ℕ) : Msg :=
  match refs with
  | [] => .getReply cb ⟨.noMoreRows, "No more rows."⟩ ctxt ∅
  | ref :: _ => .contentGet ctxt ref.toReference true cb

/-- `get_next` has come to `ref` in the list of an index entry. -/
theorem Rings.getNext_index (ctxt : Context) {pre rest : List RowReference} (hkeyed : IndexKeyed s)
    (hindex : table.indices.lookup ctxt.index = some columns)
    (he : (s.indexDhts ctxt.index).find? sguid = some e) (hrow : ctxt.indexRow = e.id)
    (hrefs : e.refs = pre ++ ref :: rest) (hnodup : e.refs.Nodup)
    (hcur : ctxt.currentRow = ref.toReference) (cb : ℕ) :
    s.getNext table ctxt cb = s.post [askFor ctxt rest cb] := by
  have hne : ctxt.index ≠ "" := by
    intro h
    rw [h, table.index_names] at hindex
    nomatch hindex
  have hfind : (s.indexDhts ctxt.index).find? e.id.guid = some e := by
    rw [hkeyed ctxt.index sguid e he, he]
  have htail : (e.refs.dropWhile fun r => !r.matches ctxt.currentRow).tail = rest := by
    rw [hrefs, hcur]
    exact IndexEntry.tail_dropWhile (hrefs ▸ hnodup)
  simp only [getNext, if_pos hne, hindex, indexGetNext, hrow, hfind,
    IndexEntry.getNext, Reference.matches_self, Bool.not_true, Bool.false_eq_true, if_false, htail]
  cases rest <;> rfl

/-- The rows of the references, in order. -/
def Rings.rowsAt (s : Rings) (refs : List RowReference) : List (Reference × Row) :=
  refs.map fun ref => (ref.toReference, (s.rows ref.guid).getD ∅)

/-- **From a reference on, the iteration gets the rows of the references that follow.** -/
theorem Rings.iterate_askFor (hq : s.queue = []) (hkeyed : IndexKeyed s) (ctxt : Context)
    (hindex : table.indices.lookup ctxt.index = some columns)
    (he : (s.indexDhts ctxt.index).find? sguid = some e) (hrow : ctxt.indexRow = e.id)
    (hnodup : e.refs.Nodup)
    (hlive : ∀ ref ∈ e.refs, ∃ c, s.content.find? ref.guid = some c ∧ c.id = ref)
    {pre rest : List RowReference} (hrefs : e.refs = pre ++ rest) (cb : ℕ) :
    (s.post [askFor ctxt rest cb]).iterate table (rest.length + 1) =
      some (s.rowsAt rest, ⟨.noMoreRows, "No more rows."⟩) := by
  induction rest generalizing pre ctxt cb with
  | nil =>
    rw [iterate, askFor, awaitReply_getReply hq]
    rfl
  | cons ref rest ih =>
    obtain ⟨c, hc, rfl⟩ := hlive ref (by rw [hrefs]; simp)
    have hdata : s.rows c.id.guid = some c.row := by
      rw [rows, core, hc]
      rfl
    let next : Context :=
      { ctxt with initialRow := c.id.toReference, currentRow := c.id.toReference }
    have hrest := ih next hindex he hrow (hrefs.trans (append_cons pre c.id rest)) 0
    rw [iterate, askFor, awaitReply_contentGet hq hc]
    simp only [Result.ok, if_true]
    rw [getNext_index next hkeyed hindex he hrow hrefs hnodup rfl, length_cons, hrest,
      map_some, rowsAt, rowsAt, map_cons, hdata]
    rfl

/-- The answer to a request of an index is at most two messages away. -/
theorem Rings.awaitReply_askFor (hq : s.queue = []) {refs : List RowReference}
    (hlive : ∀ ref ∈ refs, ∃ c, s.content.find? ref.guid = some c ∧ c.id = ref) (ctxt : Context)
    (cb n : ℕ) : (s.post [askFor ctxt refs cb]).awaitReply (n + 2) =
      (s.post [askFor ctxt refs cb]).awaitReply 2 := by
  cases refs with
  | nil => rw [askFor, awaitReply_getReply hq, awaitReply_getReply hq]
  | cons ref refs =>
    obtain ⟨c, hc, rfl⟩ := hlive ref mem_cons_self
    rw [askFor, awaitReply_contentGet hq hc, awaitReply_contentGet hq hc _ _ ctxt]

/-- `Index_DHT::get` asks for the first of the references. -/
theorem Rings.indexGet_eq (s : Rings) (ctxt : Context) (id : Reference) (cb : ℕ) :
    ∃ indexRow, s.indexGet ctxt id cb =
        s.post [askFor { ctxt with indexRow } (s.refs ctxt.index id.guid) cb] ∧
      (s.refs ctxt.index id.guid ≠ [] →
        ∃ e, (s.indexDhts ctxt.index).find? id.guid = some e ∧ indexRow = e.id) := by
  unfold indexGet refs
  simp only
  cases (s.indexDhts ctxt.index).find? id.guid with
  | none => exact ⟨id, rfl, absurd rfl⟩
  | some e =>
    simp only [elim_some, IndexEntry.get]
    cases h : e.refs with
    | nil => exact ⟨id, rfl, absurd rfl⟩
    | cons ref refs => exact ⟨e.id, rfl, fun _ => ⟨e, rfl, rfl⟩⟩

/-- **A request under a secondary GUID gets all its references.** -/
theorem Rings.iterate_indexGet (ctxt : Context) (id : Reference)
    (hq : s.queue = []) (hkeyed : IndexKeyed s)
    (hindex : table.indices.lookup ctxt.index = some columns)
    (hnodup : (s.refs ctxt.index id.guid).Nodup)
    (hlive : ∀ ref ∈ s.refs ctxt.index id.guid,
      ∃ c, s.content.find? ref.guid = some c ∧ c.id = ref) (cb : ℕ) :
    (s.post [.indexGet ctxt id cb]).iterate table ((s.refs ctxt.index id.guid).length + 1) =
      some (s.rowsAt (s.refs ctxt.index id.guid), ⟨.noMoreRows, "No more rows."⟩) := by
  obtain ⟨indexRow, hget, hentry⟩ := s.indexGet_eq ctxt id cb
  have hawait : (s.post [.indexGet ctxt id cb]).awaitReply 3 =
      (s.post [askFor { ctxt with indexRow } (s.refs ctxt.index id.guid) cb]).awaitReply 3 := by
    rw [awaitReply_askFor hq hlive, post_nil_queue hq [.indexGet ctxt id cb], awaitReply]
    simp only [with_queue_nil hq, handle, hget]
  have hsame : (s.post [.indexGet ctxt id cb]).iterate table
        ((s.refs ctxt.index id.guid).length + 1) =
      (s.post [askFor { ctxt with indexRow } (s.refs ctxt.index id.guid) cb]).iterate table
        ((s.refs ctxt.index id.guid).length + 1) := by
    rw [iterate, iterate, hawait]
  rw [hsame]
  by_cases hrefs : s.refs ctxt.index id.guid = []
  · rw [hrefs, askFor, iterate, awaitReply_getReply hq]
    rfl
  · obtain ⟨e, he, hrow⟩ := hentry hrefs
    have heq : s.refs ctxt.index id.guid = e.refs := by rw [refs, he, elim_some]
    rw [heq] at hnodup hlive ⊢
    exact iterate_askFor hq hkeyed { ctxt with indexRow } hindex he hrow hnodup hlive
      (nil_append e.refs).symm cb

/-! ### Queries -/

/-- `get` looks the query up in the index `index` on `columns`. -/
structure Table.Queries (table : Table) (query : Row) (index : String) (columns : List String) :
    Prop where
  valid : table.validateColumnTypes query = none
  nonempty : query.entries ≠ []
  noGuid : query.lookup "GUID" = none
  index : table.identifyIndex query = some (index, columns)

theorem Table.Queries.matches {query : Row} (h : table.Queries query index columns) :
    table.indices.lookup index = some columns ∧ matchesQuery columns query = true := by
  obtain ⟨i, hi, he⟩ := map_eq_some_iff.1 h.index
  obtain ⟨rfl, rfl⟩ := Prod.mk.inj he
  have hmatch : matchesQuery i.2 query = true :=
    List.find?_some (p := fun i : Sigma fun _ => List String => matchesQuery i.2 query) hi
  exact ⟨AList.mem_lookup_iff.2 (mem_of_find?_eq_some hi), hmatch⟩

/-- The columns a set is made of. -/
theorem find?_foldl_insert (m : OrdMap String Unit) (c : String) :
    ((columns.foldl (fun s c => s.insert c ()) m).find? c).isSome = true ↔
      c ∈ columns ∨ (m.find? c).isSome = true := by
  induction columns generalizing m with
  | nil => simp
  | cons column columns ih =>
    rw [foldl_cons, ih, OrdMap.find?_insert, mem_cons]
    by_cases hc : c = column <;> simp [hc]

/-- **A secondary GUID needs all columns of the index.** -/
theorem isSome_computeSguid (digest : List UInt8 → GUID) {row : Row} :
    (computeSguid digest columns row).isSome = true ↔ ∀ c ∈ columns, c ∈ row := by
  have hmapM (cs : List (String × Unit)) :
      (cs.mapM fun c => row.lookup c.1).isSome = true ↔ ∀ c ∈ cs, c.1 ∈ row := by
    induction cs with
    | nil => simp
    | cons c cs ih =>
      rw [forall_mem_cons, ← ih, mapM_cons, ← AList.lookup_isSome]
      cases row.lookup c.1 <;> cases cs.mapM (fun c => row.lookup c.1) <;> simp
  rw [computeSguid, isSome_map, hmapM]
  refine ⟨fun h c hc => ?_, fun h c hc => h c.1 ?_⟩
  · obtain ⟨u, hu⟩ := isSome_iff_exists.1 ((find?_foldl_insert OrdMap.empty c).2 (.inl hc))
    exact h (c, u) (OrdMap.find?_eq_some_iff.1 hu)
  · have hfind := OrdMap.find?_eq_some_iff.2 hc
    exact ((find?_foldl_insert OrdMap.empty c.1).1 (by rw [hfind]; rfl)).resolve_right (by simp)

theorem Rings.get_of_queries (s : Rings) (digest : List UInt8 → GUID) {query : Row}
    (h : table.Queries query index columns) (cb : ℕ) :
    ∃ sguid, computeSguid digest columns query = some sguid ∧
      s.get digest table query cb =
        some (s.post [.indexGet { Context.empty with index } ⟨anyVersion, sguid, false⟩ cb]) := by
  have hcolumns : ∀ c ∈ columns, c ∈ query := by
    have := h.matches.2
    rw [matchesQuery, and_eq_true, List.all_eq_true] at this
    exact fun c hc => AList.lookup_isSome.1 (this.2 c hc)
  obtain ⟨sguid, hs⟩ := isSome_iff_exists.1 ((isSome_computeSguid digest).2 hcolumns)
  have hnonempty : query.entries.isEmpty = false := by
    rw [eq_false_iff, ne_eq, List.isEmpty_iff]
    exact h.nonempty
  refine ⟨sguid, hs, ?_⟩
  simp only [get, h.valid, hnonempty, false_eq_true, if_false, h.noGuid, h.index, hs]
  rfl

/-! ### Indices at rest -/

/-- The index is right: under each secondary GUID it has, without duplicates, the references of
the rows that have it, and iterating a query gets each such row once. -/
structure IndexOk (digest : List UInt8 → GUID) (table : Table) (s : Rings) (index : String)
    (columns : List String) : Prop where
  nodup : ∀ sguid, (s.refs index sguid).Nodup
  mem : ∀ sguid ref, ref ∈ s.refs index sguid ↔ ∃ e, s.content.find? ref.guid = some e ∧
    e.id = ref ∧ computeSguid digest columns e.row = some sguid
  query : ∀ query cb, table.Queries query index columns → ∃ s' sguid n rows last,
    s.get digest table query cb = some s' ∧ computeSguid digest columns query = some sguid ∧
    s'.iterate table n = some (rows, last) ∧ last.code = .noMoreRows ∧ (rows.map Prod.fst).Nodup ∧
    ∀ ref row, (ref, row) ∈ rows ↔ ∃ e, s.content.find? ref.guid = some e ∧
      e.id.toReference = ref ∧ e.row = row ∧ computeSguid digest columns e.row = some sguid

theorem RowReference.toReference_injective : Function.Injective RowReference.toReference := by
  intro r r' h
  refine (matches_toReference r r').1 ?_
  rw [RowReference.matches, h]
  exact r'.toReference.matches_self

/-- The secondary GUID kept with a row is that of its columns. -/
theorem Table.Indexes.find?_eq_some {row : Row} {sguids : OrdMap String GUID}
    (h : table.Indexes digest row sguids)
    (hindex : table.indices.lookup index = Option.some columns) (sguid : GUID) :
    sguids.find? index = Option.some sguid ↔
      computeSguid digest columns row = Option.some sguid := by
  obtain ⟨sguid', hs, hf⟩ := h.some index columns hindex
  rw [hs, hf]

theorem IndexInv.mem_refs (h : IndexInv digest table w) (hq : w.rings.queue = [])
    (hindex : table.indices.lookup index = some columns) (sguid : GUID) (ref : RowReference) :
    ref ∈ w.rings.refs index sguid ↔ ∃ e, w.rings.content.find? ref.guid = some e ∧ e.id = ref ∧
      computeSguid digest columns e.row = some sguid := by
  rw [(h.exact_refs hq index sguid).mem ref]
  constructor
  · rintro ⟨c, hc, hid, hs⟩
    obtain ⟨e, he, rfl⟩ := map_eq_some_iff.1 hc
    exact ⟨e, he, hid, ((h.lagging.indexes _ _ hc).find?_eq_some hindex sguid).1 hs⟩
  · rintro ⟨e, he, hid, hs⟩
    have hc := core_of_find? he
    exact ⟨e.core, hc, hid, ((h.lagging.indexes _ _ hc).find?_eq_some hindex sguid).2 hs⟩

theorem IndexInv.indexOk (h : IndexInv digest table w) (hkeyed : IndexKeyed w.rings)
    (hq : w.rings.queue = []) (hindex : table.indices.lookup index = some columns) :
    IndexOk digest table w.rings index columns := by
  have hnodup : ∀ sguid, (w.rings.refs index sguid).Nodup :=
    fun sguid => (h.exact_refs hq index sguid).nodup
  have hmem := h.mem_refs hq hindex
  refine ⟨hnodup, hmem, fun query cb hquery => ?_⟩
  obtain ⟨sguid, hs, hget⟩ := w.rings.get_of_queries digest hquery cb
  have hlive : ∀ ref ∈ w.rings.refs index sguid,
      ∃ e, w.rings.content.find? ref.guid = some e ∧ e.id = ref := by
    intro ref href
    obtain ⟨e, he, hid, -⟩ := (hmem sguid ref).1 href
    exact ⟨e, he, hid⟩
  have hiter := iterate_indexGet { Context.empty with index } ⟨anyVersion, sguid, false⟩ hq
    hkeyed hindex (hnodup sguid) hlive cb
  refine ⟨_, sguid, _, _, _, hget, hs, hiter, rfl, ?_, fun ref row => ?_⟩
  · rw [rowsAt, List.map_map]
    exact (hnodup sguid).map toReference_injective
  rw [rowsAt, List.mem_map]
  constructor
  · rintro ⟨r, hr, he⟩
    obtain ⟨rfl, rfl⟩ := Prod.mk.inj he
    obtain ⟨e, he, hid, hsg⟩ := (hmem sguid r).1 hr
    refine ⟨e, he, by rw [hid], ?_, hsg⟩
    rw [rows, core_of_find? he]
    rfl
  · rintro ⟨e, he, rfl, rfl, hsg⟩
    refine ⟨e.id, (hmem sguid e.id).2 ⟨e, he, rfl, hsg⟩, ?_⟩
    have hcore : w.rings.core e.id.guid = some e.core := core_of_find? he
    rw [rows, hcore]
    rfl

/-- **The indices are right once all messages have been delivered**, after every run in which no
GUID is used again and no row is stored without columns. -/
theorem index_consistent (digest : List UInt8 → GUID) (table : Table) (as : List Act) (w : World)
    (hrun : run (World.step digest table) World.initial as = some w)
    (hC : Along (World.step digest table) (fun w a => fresh w a = true) World.initial as)
    (hq : w.rings.queue = []) (index : String) (columns : List String)
    (hindex : table.indices.lookup index = some columns) :
    IndexOk digest table w.rings index columns := by
  have hinv : IndexInv digest table w :=
    run_invariant_of_along (fun _ _ _ h hC hs => IndexInv.step h hC hs) IndexInv.initial hC hrun
  have hkeyed : IndexKeyed w.rings :=
    run_invariant (I := fun w => IndexKeyed w.rings) (fun _ _ _ h hs => IndexKeyed.step h hs)
      IndexKeyed.initial hrun
  exact hinv.indexOk hkeyed hq hindex

/-- A row is stored and renamed. -/
def storeAndRename : List Act :=
  [.put (namedRow "a") 0 0, .modify (contextOf 1) (namedRow "b") 0] ++ List.replicate 10 .deliver

/-- The hypotheses of `index_consistent` are satisfiable. -/
theorem index_consistent_storeAndRename :
    ∃ w, run (World.step sha1OfLetters nameTable) World.initial storeAndRename = some w ∧
      w.rings.refs "t_i" (sha1OfLetters [98]) = [⟨2, 7⟩] ∧
      IndexOk sha1OfLetters nameTable w.rings "t_i" ["name"] := by
  obtain ⟨w, hw, he⟩ := map_eq_some_iff.1
    (by decide +kernel : (run (World.step sha1OfLetters nameTable) World.initial
        storeAndRename).map (fun w => (w.rings.queue.isEmpty,
          w.rings.refs "t_i" (sha1OfLetters [98]))) = some (true, [⟨2, 7⟩]))
  obtain ⟨hq, hrefs⟩ := Prod.mk.inj he
  exact ⟨w, hw, hrefs, index_consistent sha1OfLetters nameTable storeAndRename w hw
    (by decide +kernel) (isEmpty_iff.1 hq) "t_i" ["name"] (by decide +kernel)⟩

/-- A table with an index on no columns. -/
def bareTable : Table where
  name := "t"
  columns := (∅ : AList fun _ : String => ColumnType).insert "GUID" .guid
  indices := (∅ : AList fun _ : String => List String).insert "t_i" []
  guid_column := AList.lookup_insert ∅
  index_names := by decide +kernel

/-- A row is stored and its columns taken away; then it is removed with the old context. -/
def stripAndRemove : List Act :=
  [.put ((∅ : Row).insert "GUID" (.guid 7)) 0 0, .deliver, .deliver, .deliver,
    .modify (contextOf 1) ∅ 0, .remove (contextOf 1) 0] ++ List.replicate 4 .deliver

/-- **The index still has a row that is gone.**  The `remove` was refused, but the row, which has no
columns, erased. -/
theorem erased_row_still_indexed :
    ∃ w, run (World.step sha1OfLetters bareTable) World.initial stripAndRemove = some w ∧
      w.rings.queue = [] ∧ (⟨2, 7⟩ : RowReference) ∈ w.rings.refs "t_i" (sha1OfLetters []) ∧
      w.rings.content.find? 7 = none := by
  obtain ⟨w, hw, he⟩ := map_eq_some_iff.1
    (by decide +kernel : (run (World.step sha1OfLetters bareTable) World.initial
        stripAndRemove).map (fun w => (w.rings.queue.isEmpty,
          w.rings.refs "t_i" (sha1OfLetters []), (w.rings.content.find? 7).isNone)) =
      some (true, [⟨2, 7⟩], true))
  simp only [Prod.mk.injEq] at he
  obtain ⟨hq, hrefs, hnone⟩ := he
  exact ⟨w, hw, isEmpty_iff.1 hq, hrefs ▸ mem_singleton_self _, isNone_iff_eq_none.1 hnone⟩

end NoxClassic.Storage
