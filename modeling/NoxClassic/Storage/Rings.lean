/-
# The content ring and the index rings

`src/nox/netapps/storage/dht-impl.cc`.  A table keeps its rows in a content
ring, an ordered map from GUIDs to entries, and has for each of its indices a
ring from secondary GUIDs to the references of the rows that have them.  A change
of a row posts one message for each index; the index entry answers with a message
to the row, and, when a reference is taken out, with the deletion callback the
row had left there.  All of these go through one queue, `dispatcher->post`, with
the answers to the clients and the triggers of applications.

A function that is bound and posted is a `Msg`.  The `Trigger_function` a row
leaves with its index entries is always `index_entry_deleted_callback` bound to
the reference it is filed under, so `primary_triggers` keeps only its id.
Versions are `int`s in the code, whose overflow is undefined there; here they
are natural numbers.
-/

import NoxClassic.Storage.Types

namespace NoxClassic.Storage

open Lib (OrdMap)

/-- `Table_definition`, with the table's name; `create_table` adds the `GUID` column, and puts the
name and an underscore before the names of the indices. -/
structure Table where
  name : String
  columns : AList fun _ : String => ColumnType
  indices : AList fun _ : String => List String
  guid_column : columns.lookup "GUID" = some .guid
  index_names : indices.lookup "" = none

/-- `Index_DHT::primary_deleted_callback`, bound: what an index entry hands to the row. -/
structure PrimaryDeleted where
  index : String
  sguid : GUID
  ref : RowReference
  row : Row

/-- `Content_DHT_entry`. -/
structure ContentEntry where
  id : RowReference
  row : Row
  sguids : OrdMap String GUID
  indexTriggers : TriggerMap PrimaryDeleted
  nonstickyTriggers : TriggerMap ℕ
  nextTid : ℤ

/-- `Index_DHT_entry`. -/
structure IndexEntry where
  id : Reference
  refs : List RowReference
  primaryTriggers : List (RowReference × TriggerId)
  nonstickyTriggers : TriggerMap ℕ
  nextTid : ℤ

/-- A function bound to its arguments and posted.  `cb` numbers the callback of a request;
`none` is `callback_1`, which ignores the result. -/
inductive Msg where
  | indexPut (index : String) (sguid : GUID) (ref : RowReference) (row : Row)
      (reason : TriggerReason)
  | indexModify (index : String) (sguid : GUID) (prevRef ref : RowReference) (prevRow row : Row)
      (reason : TriggerReason)
  | indexRemove (index : String) (sguid : GUID) (ref : RowReference) (row : Row)
      (updated : RowReference) (reason : TriggerReason)
  | entryUpdated (ref : RowReference) (index : String) (sguid : GUID)
      (tdef : Option (TriggerId × PrimaryDeleted))
  | entryDeleted (ref : RowReference)
  | trigger (f : ℕ) (tid : TriggerId) (row : Row) (reason : TriggerReason)
  | contentGet (ctxt : Context) (id : Reference) (exact : Bool) (cb : ℕ)
  | indexGet (ctxt : Context) (id : Reference) (cb : ℕ)
  | getReply (cb : ℕ) (result : Result) (ctxt : Context) (row : Row)
  | putReply (cb : ℕ) (result : Result) (guid : GUID)
  | modifyReply (cb : ℕ) (result : Result) (ctxt : Context)
  | removeReply (cb : Option ℕ) (result : Result)
  | putTriggerReply (cb : ℕ) (result : Result) (tid : TriggerId)

/-- One table: `Content_DHT`, its `Index_DHT`s and the queue of the dispatcher. -/
structure Rings where
  content : OrdMap GUID ContentEntry
  indexDhts : String → OrdMap GUID IndexEntry
  stickyTableTriggers : TriggerMap ℕ
  nonstickyTableTriggers : TriggerMap ℕ
  nextTid : UInt64
  queue : List Msg

/-- A table just created. -/
def Rings.initial : Rings where
  content := OrdMap.empty
  indexDhts := fun _ => OrdMap.empty
  stickyTableTriggers := []
  nonstickyTableTriggers := []
  nextTid := 0
  queue := []

/-- `dispatcher->post`, one after another. -/
def Rings.post (s : Rings) (ms : List Msg) : Rings := { s with queue := s.queue ++ ms }

/-- The invocations of the triggers of a map, in its order. -/
def invocations (ts : TriggerMap ℕ) (row : Row) (reason : TriggerReason) : List Msg :=
  ts.map fun t => .trigger t.2 t.1 row reason

/-- `Content_DHT::invoke_table_triggers`. -/
def Rings.invokeTableTriggers (s : Rings) (row : Row) (reason : TriggerReason) : Rings :=
  { s.post (invocations s.stickyTableTriggers row reason ++
      invocations s.nonstickyTableTriggers row reason) with nonstickyTableTriggers := [] }

/-! ### Entries of the content ring -/

/-- `Content_DHT_entry::empty`. -/
def ContentEntry.empty (e : ContentEntry) : Bool :=
  e.nonstickyTriggers.isEmpty && e.indexTriggers.isEmpty && e.row.entries.isEmpty

/-- `Content_DHT_entry::get`. -/
def ContentEntry.get (e : ContentEntry) (ctxt : Context) (id : Reference) (exact : Bool)
    (cb : ℕ) : Msg :=
  if !e.id.matches id && exact then
    .getReply cb (.concurrent "Row modified since its retrieval/index creation.") ctxt ∅
  else
    .getReply cb .ok
      { ctxt with initialRow := e.id.toReference, currentRow := e.id.toReference } e.row

/-- `Content_DHT_entry::get_next`. -/
def ContentEntry.getNext (e : ContentEntry) (ctxt : Context) (cb : ℕ) : Msg :=
  .getReply cb .ok { ctxt with currentRow := e.id.toReference } e.row

/-- `Content_DHT_entry::put`. -/
def ContentEntry.put (e : ContentEntry) (s : Rings) (ctxt : Context)
    (newSguids : OrdMap String GUID) (row : Row) : Result × ContentEntry × Rings :=
  if !e.id.matches ctxt.currentRow then (.concurrent "Row modified since retrieval.", e, s)
  else
    let id := e.id.next
    let updates := newSguids.entries.map fun (index, sguid) => .indexPut index sguid id row .insert
    (.ok, { e with id, row, sguids := newSguids, nonstickyTriggers := [] },
      (s.post (updates ++ invocations e.nonstickyTriggers row .insert)).invokeTableTriggers row
        .insert)

/-- The updates `Content_DHT_entry::modify` computes for one index, in order of the secondary
GUIDs they go to. -/
def ContentEntry.indexUpdates (e : ContentEntry) (row : Row) (index : String) (sguid : GUID) :
    List Msg :=
  let id := e.id.next
  let prevSguid := (e.sguids.find? index).getD 0
  if prevSguid ≠ sguid then
    let put := .indexPut index sguid id row .modify
    let remove := .indexRemove index prevSguid e.id e.row id .modify
    if sguid < prevSguid then [put, remove] else [remove, put]
  else [.indexModify index sguid e.id id e.row row .modify]

/-- `Content_DHT_entry::modify`. -/
def ContentEntry.modify (e : ContentEntry) (s : Rings) (ctxt : Context)
    (newSguids : OrdMap String GUID) (row : Row) : Result × Context × ContentEntry × Rings :=
  if !e.id.matches ctxt.currentRow then
    (.concurrent "Row modified since its retrieval.", ctxt, e, s)
  else
    let id := e.id.next
    let updates := newSguids.entries.flatMap fun (index, sguid) => e.indexUpdates row index sguid
    (.ok, { ctxt with currentRow := id.toReference },
      { e with id, row, sguids := newSguids, nonstickyTriggers := [], indexTriggers := [] },
      (s.post (updates ++ invocations e.nonstickyTriggers e.row .modify)).invokeTableTriggers
        e.row .modify)

/-- `Content_DHT_entry::remove`. -/
def ContentEntry.remove (e : ContentEntry) (s : Rings) (ref : Reference) :
    Result × ContentEntry × Rings :=
  if !e.id.matches ref then (.concurrent "Row modified since its retrieval.", e, s)
  else
    let id := e.id.next
    let updates := e.sguids.entries.map fun (index, sguid) =>
      .indexRemove index sguid e.id e.row id .remove
    (.ok, { e with id, row := ∅, nonstickyTriggers := [], indexTriggers := [] },
      (s.post (invocations e.nonstickyTriggers e.row .remove ++ updates)).invokeTableTriggers
        e.row .remove)

/-- `Content_DHT_entry::index_entry_updated_callback`. -/
def ContentEntry.indexEntryUpdated (e : ContentEntry) (ref : RowReference) (index : String)
    (sguid : GUID) (tdef : TriggerId × PrimaryDeleted) : ContentEntry :=
  if !e.id.matches ref.toReference then e
  else
    let tid : TriggerId := ⟨false, index, ⟨0, sguid, false⟩, 0⟩
    { e with indexTriggers := setBy TriggerId.less tid tdef.2 e.indexTriggers }

/-! ### The content ring -/

/-- `Content_DHT::get`. -/
def Rings.contentGet (s : Rings) (ctxt : Context) (id : Reference) (exact : Bool) (cb : ℕ) :
    Rings :=
  match if exact then s.content.find? id.guid else (s.content.lowerBound id.guid).map (·.2) with
  | none =>
    let result :=
      if exact then Result.concurrent "Can't find specified row" else ⟨.noMoreRows, ""⟩
    s.post [.getReply cb result .empty ∅]
  | some e => s.post [e.get ctxt id exact cb]

/-- `Content_DHT::get_next`. -/
def Rings.contentGetNext (s : Rings) (ctxt : Context) (cb : ℕ) : Rings :=
  let endOfRows : Msg := .getReply cb ⟨.noMoreRows, "End of rows."⟩ ctxt ∅
  let current := ctxt.currentRow.guid
  let initial := ctxt.initialRow.guid
  match (s.content.upperBound current).or (s.content.lowerBound 0) with
  | none => s.post [endOfRows]
  | some (g, e) =>
    if g = initial then s.post [endOfRows]
    else if current < initial ∧ ¬ g < initial then s.post [endOfRows]
    else s.post [e.getNext ctxt cb]

/-- The row `Content_DHT::put` stores: the client's, with `GUID::random()` where it has no
GUID. -/
def withGuid (row : Row) (random : GUID) : Row :=
  match row.lookup "GUID" with
  | none => row.insert "GUID" (.guid random)
  | some _ => row

/-- `Content_DHT::put`. -/
def Rings.contentPut (s : Rings) (newSguids : OrdMap String GUID) (row : Row) (random : GUID)
    (cb : ℕ) : Result × Rings :=
  let row' := withGuid row random
  match row'.lookup "GUID" with
  | some (.guid g) =>
    match s.content.find? g with
    | none =>
      let ctxt : Context := { Context.empty with currentRow := ⟨0, g, false⟩ }
      let e : ContentEntry :=
        { id := ⟨0, g⟩, row := row', sguids := OrdMap.empty, indexTriggers := [],
          nonstickyTriggers := [], nextTid := 0 }
      let (result, e, s) := e.put s ctxt newSguids row'
      (result, { s with content := s.content.insert g e }.post [.putReply cb result g])
    | some _ =>
      let result := Result.concurrent "Row does exist."
      (result, s.post [.putReply cb result 0])
  | _ =>
    let result : Result := ⟨.invalidRowOrQuery, "GUID given with invalid type."⟩
    (result, s.post [.putReply cb result 0])

/-- `Content_DHT::modify`. -/
def Rings.contentModify (s : Rings) (ctxt : Context) (newSguids : OrdMap String GUID) (row : Row)
    (cb : ℕ) : Result × Rings :=
  match s.content.find? ctxt.currentRow.guid with
  | none =>
    let result := Result.concurrent "Row removed since retrieval."
    (result, s.post [.modifyReply cb result ctxt])
  | some e =>
    let (result, newCtxt, e, s) := e.modify s ctxt newSguids row
    (result, { s with content := s.content.insert ctxt.currentRow.guid e }.post
      [.modifyReply cb result newCtxt])

/-- `Content_DHT::internal_remove`. -/
def Rings.internalRemove (s : Rings) (currentRow : Reference) (cb : Option ℕ) : Result × Rings :=
  match s.content.find? currentRow.guid with
  | none =>
    let result := Result.concurrent "Row removed since retrieval."
    (result, s.post [.removeReply cb result])
  | some e =>
    let (result, e, s) := e.remove s currentRow
    let content := if e.empty then s.content.erase currentRow.guid
      else s.content.insert currentRow.guid e
    (result, { s with content }.post [.removeReply cb result])

/-- `Content_DHT::index_entry_updated_callback`. -/
def Rings.indexEntryUpdated (s : Rings) (ref : RowReference) (index : String) (sguid : GUID)
    (tdef : Option (TriggerId × PrimaryDeleted)) : Rings :=
  match tdef, s.content.find? ref.guid with
  | some tdef, some e =>
    { s with content := s.content.insert ref.guid (e.indexEntryUpdated ref index sguid tdef) }
  | _, _ => s

/-! ### Entries of the index rings -/

/-- `Index_DHT_entry::empty`. -/
def IndexEntry.empty (e : IndexEntry) : Bool := e.nonstickyTriggers.isEmpty && e.refs.isEmpty

/-- `Index_DHT_entry::get`. -/
def IndexEntry.get (e : IndexEntry) (ctxt : Context) (cb : ℕ) : Msg :=
  match e.refs with
  | [] => .getReply cb ⟨.noMoreRows, "No more rows."⟩ ctxt ∅
  | ref :: _ => .contentGet { ctxt with indexRow := e.id } ref.toReference true cb

/-- `Index_DHT_entry::get_next`. -/
def IndexEntry.getNext (e : IndexEntry) (ctxt : Context) (cb : ℕ) : Msg :=
  if !ctxt.indexRow.matches e.id then
    .getReply cb (.concurrent "Index modified while iterating.") ctxt ∅
  else
    match (e.refs.dropWhile fun ref => !ref.matches ctxt.currentRow).tail with
    | [] => .getReply cb ⟨.noMoreRows, "No more rows."⟩ ctxt ∅
    | ref :: _ => .contentGet ctxt ref.toReference true cb

/-- The end of `Index_DHT_entry::put` and `modify`: the trigger for the primary row is
installed, and the row told. -/
def IndexEntry.installTrigger (e : IndexEntry) (index : String) (ref : RowReference) (row : Row) :
    IndexEntry × Msg :=
  let tid : TriggerId := ⟨false, index, e.id, e.nextTid⟩
  ({ e with
      nextTid := e.nextTid + 1
      primaryTriggers := setBy (fun r r' => r.toReference.less r'.toReference) ref tid
        e.primaryTriggers },
    .entryUpdated ref index e.id.guid (some (tid, ⟨index, e.id.guid, ref, row⟩)))

/-- `Index_DHT_entry::put`. -/
def IndexEntry.put (e : IndexEntry) (index : String) (ref : RowReference) (row : Row)
    (reason : TriggerReason) : IndexEntry × List Msg :=
  let e' := { e with
    id := { e.id with version := e.id.version + 1 }
    refs := e.refs ++ [ref]
    nonstickyTriggers := [] }
  let (e', updated) := e'.installTrigger index ref row
  (e', invocations e.nonstickyTriggers row reason ++ [updated])

/-- `Index_DHT_entry::modify`. -/
def IndexEntry.modify (e : IndexEntry) (index : String) (prevRef ref : RowReference)
    (prevRow row : Row) (reason : TriggerReason) : IndexEntry × List Msg :=
  let e' := { e with
    id := { e.id with version := e.id.version + 1 }
    refs := e.refs.erase prevRef ++ [ref]
    nonstickyTriggers := []
    primaryTriggers := e.primaryTriggers.filter fun t => t.1 ≠ prevRef }
  let (e', updated) := e'.installTrigger index ref row
  (e', invocations e.nonstickyTriggers prevRow reason ++ [updated])

/-- `Index_DHT_entry::remove`. -/
def IndexEntry.remove (e : IndexEntry) (ref : RowReference) (row : Row) (reason : TriggerReason) :
    IndexEntry × List Msg :=
  if ref ∉ e.refs then (e, [])
  else
    ({ e with
        id := { e.id with version := e.id.version + 1 }
        refs := e.refs.erase ref
        nonstickyTriggers := []
        primaryTriggers := e.primaryTriggers.filter fun t => t.1 ≠ ref },
      invocations e.nonstickyTriggers row reason ++
        (e.primaryTriggers.filter fun t => t.1 = ref).map fun t => .entryDeleted t.1)

/-! ### The index rings -/

/-- The entry at `sguid`, or the one `Index_DHT::put` makes there. -/
def Rings.indexEntry (s : Rings) (index : String) (sguid : GUID) : IndexEntry :=
  ((s.indexDhts index).find? sguid).getD
    { id := ⟨0, sguid, false⟩, refs := [], primaryTriggers := [], nonstickyTriggers := [],
      nextTid := 0 }

/-- The ring of `index` is changed. -/
def Rings.setIndex (s : Rings) (index : String) (ring : OrdMap GUID IndexEntry) : Rings :=
  { s with indexDhts := Function.update s.indexDhts index ring }

/-- `Index_DHT::get`. -/
def Rings.indexGet (s : Rings) (ctxt : Context) (id : Reference) (cb : ℕ) : Rings :=
  let ctxt := { ctxt with indexRow := id }
  match (s.indexDhts ctxt.index).find? id.guid with
  | none => s.post [.getReply cb ⟨.noMoreRows, "No more rows."⟩ ctxt ∅]
  | some e => s.post [e.get ctxt cb]

/-- `Index_DHT::get_next`. -/
def Rings.indexGetNext (s : Rings) (ctxt : Context) (cb : ℕ) : Rings :=
  match (s.indexDhts ctxt.index).find? ctxt.indexRow.guid with
  | none => s.post [.getReply cb (.concurrent "Index modified while iterating.") ctxt ∅]
  | some e => s.post [e.getNext ctxt cb]

/-- `Index_DHT::put`. -/
def Rings.indexPut (s : Rings) (index : String) (sguid : GUID) (ref : RowReference) (row : Row)
    (reason : TriggerReason) : Rings :=
  let (e, ms) := (s.indexEntry index sguid).put index ref row reason
  (s.setIndex index ((s.indexDhts index).insert sguid e)).post ms

/-- `Index_DHT::modify`. -/
def Rings.indexModify (s : Rings) (index : String) (sguid : GUID) (prevRef ref : RowReference)
    (prevRow row : Row) (reason : TriggerReason) : Rings :=
  match (s.indexDhts index).find? sguid with
  | none => s.indexPut index sguid ref row reason
  | some e =>
    let (e, ms) := e.modify index prevRef ref prevRow row reason
    (s.setIndex index ((s.indexDhts index).insert sguid e)).post ms

/-- `Index_DHT::remove`. -/
def Rings.indexRemove (s : Rings) (index : String) (sguid : GUID) (ref : RowReference) (row : Row)
    (updated : RowReference) (reason : TriggerReason) : Rings :=
  match (s.indexDhts index).find? sguid with
  | none => s.post [.entryUpdated updated index sguid none]
  | some e =>
    let (e, ms) := e.remove ref row reason
    let ring := if e.empty then (s.indexDhts index).erase sguid
      else (s.indexDhts index).insert sguid e
    (s.setIndex index ring).post (ms ++ [.entryUpdated updated index sguid none])

end NoxClassic.Storage
