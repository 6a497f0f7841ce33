/-
# The storage and its clients

`Async_DHT_storage` (`src/nox/netapps/storage/dht-storage.cc`) on top of the rings,
for one table from its creation on.  Clients call it at any time, and in between
the dispatcher delivers the posted messages in the order they were posted: a run
is a list of calls and deliveries, and every interleaving of several clients
with the callbacks is one.

A call with a row that lacks a column of an index dereferences a missing entry
(`compute_sguid`), so such a step is not enabled.

`World` adds to the rings what the results speak of and no function reads: the
client operations that reported success, and the contexts handed out so far, each
with the number of those operations at that time.
-/

import NoxClassic.Lib.Run
import NoxClassic.Storage.Rings

namespace NoxClassic.Storage

open Lib (OrdMap)

variable (digest : List UInt8 → GUID) (table : Table)

/-- `validate_column_types`: the message about a column the table does not have with that
type. -/
def Table.validateColumnTypes (c : Row) : Option String :=
  (c.entries.find? fun t => table.columns.lookup t.1 ≠ some t.2.type).map fun t =>
    "column '" ++ t.1 ++ "' doesn't exist or has invalid type "

/-- The index GUIDs of a row, one for each index of the table. -/
def Table.sguids (row : Row) : Option (OrdMap String GUID) :=
  table.indices.entries.foldlM
    (fun m i => (computeSguid digest i.2 row).map fun sguid => m.insert i.1 sguid) OrdMap.empty

/-- `Index::operator==` on a query. -/
def matchesQuery (columns : List String) (c : Row) : Bool :=
  c.entries.length = columns.length && columns.all fun column => (c.lookup column).isSome

/-- `identify_index`. -/
def Table.identifyIndex (q : Row) : Option (String × List String) :=
  (table.indices.entries.find? fun i => matchesQuery i.2 q).map fun i => (i.1, i.2)

/-- `Async_DHT_storage::get`. -/
def Rings.get (s : Rings) (query : Row) (cb : ℕ) : Option Rings :=
  match table.validateColumnTypes query with
  | some message => s.post [.getReply cb ⟨.invalidRowOrQuery, message⟩ .empty ∅]
  | none =>
    if query.entries.isEmpty then s.post [.contentGet .empty .any false cb]
    else
      match query.lookup "GUID" with
      | none =>
        match table.identifyIndex query with
        | some (index, columns) => do
          let sguid ← computeSguid digest columns query
          s.post [.indexGet { Context.empty with index } ⟨anyVersion, sguid, false⟩ cb]
        | none => s.post [.getReply cb ⟨.invalidRowOrQuery, "no matching index"⟩ .empty ∅]
      | some (.guid g) => s.post [.contentGet .empty ⟨anyVersion, g, false⟩ false cb]
      | some _ => none

/-- `Async_DHT_storage::get_next`. -/
def Rings.getNext (s : Rings) (ctxt : Context) (cb : ℕ) : Rings :=
  if ctxt.index ≠ "" then
    match table.indices.lookup ctxt.index with
    | none => s.post [.getReply cb (.concurrent "Table removed while iterating.") ctxt ∅]
    | some _ => s.indexGetNext ctxt cb
  else s.contentGetNext ctxt cb

/-- `Async_DHT_storage::put`. -/
def Rings.put (s : Rings) (row : Row) (random : GUID) (cb : ℕ) : Option (Result × Rings) :=
  match table.validateColumnTypes row with
  | some message =>
    let result : Result := ⟨.invalidRowOrQuery, message⟩
    some (result, s.post [.putReply cb result 0])
  | none => (table.sguids digest row).map fun sguids => s.contentPut sguids row random cb

/-- `Async_DHT_storage::modify`. -/
def Rings.modify (s : Rings) (ctxt : Context) (row : Row) (cb : ℕ) : Option (Result × Rings) :=
  match table.validateColumnTypes row with
  | some message =>
    let result := Result.concurrent message
    some (result, s.post [.modifyReply cb result .empty])
  | none => (table.sguids digest row).map fun sguids =>
    if (row.lookup "GUID").all (· = .guid ctxt.currentRow.guid) then
      s.contentModify ctxt sguids row cb
    else
      let result : Result := ⟨.invalidRowOrQuery, "Row and context don't match."⟩
      (result, s.post [.modifyReply cb result .empty])

/-- `Async_DHT_storage::remove`. -/
def Rings.remove (s : Rings) (ctxt : Context) (cb : ℕ) : Result × Rings :=
  s.internalRemove ctxt.currentRow (some cb)

/-- `DHT_entry::put_trigger` on an entry that has the id `id`. -/
def putEntryTrigger (ring : String) (id currentRow : Reference) (nextTid : ℤ)
    (triggers : TriggerMap ℕ) (f cb : ℕ) : Msg × ℤ × TriggerMap ℕ :=
  if !id.matches currentRow then
    (.putTriggerReply cb (.concurrent "Row modified since retrieval.") .failed, nextTid, triggers)
  else
    let tid : TriggerId := ⟨false, ring, id, nextTid⟩
    (.putTriggerReply cb .ok tid, nextTid + 1, setBy TriggerId.less tid f triggers)

/-- `Async_DHT_storage::put_trigger` on the results of a query. -/
def Rings.putTrigger (s : Rings) (ctxt : Context) (f cb : ℕ) : Rings :=
  if ctxt.index = "" then
    match s.content.find? ctxt.currentRow.guid with
    | none => s.post [.putTriggerReply cb (.concurrent "Row removed since retrieval.") .failed]
    | some e =>
      let (reply, nextTid, nonstickyTriggers) := putEntryTrigger table.name e.id.toReference
        ctxt.currentRow e.nextTid e.nonstickyTriggers f cb
      let e := { e with nextTid, nonstickyTriggers }
      { s with content := s.content.insert ctxt.currentRow.guid e }.post [reply]
  else
    match table.indices.lookup ctxt.index with
    | none => s.post [.putTriggerReply cb (.concurrent "\"Index dropped.\"") .failed]
    | some _ =>
      let ring := s.indexDhts ctxt.index
      let e := (ring.find? ctxt.indexRow.guid).getD
        { id := ctxt.indexRow, refs := [], primaryTriggers := [], nonstickyTriggers := [],
          nextTid := 0 }
      let (reply, nextTid, nonstickyTriggers) := putEntryTrigger ctxt.index e.id
        ctxt.indexRow e.nextTid e.nonstickyTriggers f cb
      let e := { e with nextTid, nonstickyTriggers }
      (s.setIndex ctxt.index (ring.insert ctxt.indexRow.guid e)).post [reply]

/-- `Async_DHT_storage::put_trigger` on the table. -/
def Rings.putTableTrigger (s : Rings) (sticky : Bool) (f cb : ℕ) : Rings :=
  let tid : TriggerId := ⟨true, table.name, .any, (s.nextTid.toNat : ℤ).bmod (2 ^ 32)⟩
  let s := { s with nextTid := s.nextTid + 1 }
  let s := if sticky
    then { s with stickyTableTriggers := setBy TriggerId.less tid f s.stickyTableTriggers }
    else { s with nonstickyTableTriggers := setBy TriggerId.less tid f s.nonstickyTableTriggers }
  s.post [.putTriggerReply cb .ok tid]

/-- `DHT_entry::remove_trigger`. -/
def removeEntryTrigger (id : Reference) (tid : TriggerId) (triggers : TriggerMap ℕ) :
    Result × TriggerMap ℕ :=
  if !id.matches tid.ref then (.concurrent "Row modified since trigger insertion.", triggers)
  else (.ok, eraseBy TriggerId.less tid triggers)

/-- `Async_DHT_storage::remove_trigger`. -/
def Rings.removeTrigger (s : Rings) (tid : TriggerId) (cb : ℕ) : Rings :=
  match table.indices.lookup tid.ring with
  | some _ =>
    let ring := s.indexDhts tid.ring
    let s := match ring.find? tid.ref.guid with
      | none => s
      | some e => s.setIndex tid.ring (ring.insert tid.ref.guid
          { e with nonstickyTriggers := (removeEntryTrigger e.id tid e.nonstickyTriggers).2 })
    s.post [.removeReply (some cb) .ok]
  | none =>
    if tid.ring ≠ table.name then
      s.post [.removeReply (some cb) (.concurrent "Table removed.")]
    else if tid.forTable then
      { s with
        stickyTableTriggers := eraseBy TriggerId.less tid s.stickyTableTriggers
        nonstickyTableTriggers := eraseBy TriggerId.less tid s.nonstickyTableTriggers }.post
          [.removeReply (some cb) .ok]
    else
      match s.content.find? tid.ref.guid with
      | none => s.post [.removeReply (some cb)
          (.concurrent "Row removed since trigger creation.")]
      | some e =>
        let (result, nonstickyTriggers) :=
          removeEntryTrigger e.id.toReference tid e.nonstickyTriggers
        let e := { e with nonstickyTriggers }
        { s with content := s.content.insert tid.ref.guid e }.post
          [.removeReply (some cb) result]

/-- A message is run.  Answers and the triggers of applications are taken by the clients, who
may call the storage again in later steps. -/
def Rings.handle (s : Rings) : Msg → Rings
  | .indexPut index sguid ref row reason => s.indexPut index sguid ref row reason
  | .indexModify index sguid prevRef ref prevRow row reason =>
    s.indexModify index sguid prevRef ref prevRow row reason
  | .indexRemove index sguid ref row updated reason =>
    s.indexRemove index sguid ref row updated reason
  | .entryUpdated ref index sguid tdef => s.indexEntryUpdated ref index sguid tdef
  | .entryDeleted ref => (s.internalRemove ref.toReference none).2
  | .contentGet ctxt id exact cb => s.contentGet ctxt id exact cb
  | .indexGet ctxt id cb => s.indexGet ctxt id cb
  | .trigger _ _ _ _ | .getReply _ _ _ _ | .putReply _ _ _ | .modifyReply _ _ _
  | .removeReply _ _ | .putTriggerReply _ _ _ => s

/-- The dispatcher runs the first message of the queue. -/
def Rings.deliver (s : Rings) : Option Rings :=
  match s.queue with
  | [] => none
  | m :: queue => some ({ s with queue }.handle m)

/-- A client operation that reported success: the row `put` stored, the one `modify` did,
and the GUID `remove` was given. -/
inductive Op where
  | put (guid : GUID) (row : Row)
  | modify (guid : GUID) (row : Row)
  | remove (guid : GUID)

/-- The GUID of the row it changed. -/
def Op.guid : Op → GUID
  | .put guid _ => guid
  | .modify guid _ => guid
  | .remove guid => guid

/-- The rings, the successful operations of the clients, the newest first, and the contexts
handed out, each with the number of operations before it. -/
structure World where
  rings : Rings
  ops : List Op
  handed : List (Context × ℕ)

/-- A table just created. -/
def World.initial : World := ⟨.initial, [], []⟩

/-- The context an answer to `get` or `get_next` hands to the client. -/
def Msg.context : Msg → Option Context
  | .getReply _ ⟨.success, _⟩ ctxt _ => some ctxt
  | _ => none

/-- The contexts in the messages posted since the queue was `queue`. -/
def Rings.newContexts (s : Rings) (queue : List Msg) : List Context :=
  (s.queue.drop queue.length).filterMap Msg.context

/-- The world with the rings `s`, where those before had the messages `queue` left. -/
def World.after (w : World) (queue : List Msg) (s : Rings) : World :=
  { w with
    rings := s
    handed := w.handed ++ (s.newContexts queue).map fun ctxt => (ctxt, w.ops.length) }

/-- The world after an operation that reported `r` and left the rings as `s`. -/
def World.afterOp (w : World) (op : Op) (r : Result × Rings) : World :=
  { w.after w.rings.queue r.2 with
    ops := if r.1.code = .success then op :: w.ops else w.ops }

/-- What the clients and the dispatcher do; `random` is what `GUID::random()` returns. -/
inductive Act where
  | get (query : Row) (cb : ℕ)
  | getNext (ctxt : Context) (cb : ℕ)
  | put (row : Row) (random : GUID) (cb : ℕ)
  | modify (ctxt : Context) (row : Row) (cb : ℕ)
  | remove (ctxt : Context) (cb : ℕ)
  | putTrigger (ctxt : Context) (f cb : ℕ)
  | putTableTrigger (sticky : Bool) (f cb : ℕ)
  | removeTrigger (tid : TriggerId) (cb : ℕ)
  | deliver

/-- The GUID of the row that `put` stores. -/
def putGuid (row : Row) (random : GUID) : GUID :=
  match (withGuid row random).lookup "GUID" with
  | some (.guid g) => g
  | _ => 0

/-- One step. -/
def World.step (w : World) : Act → Option World
  | .get query cb => (w.rings.get digest table query cb).map (w.after w.rings.queue)
  | .getNext ctxt cb => w.after w.rings.queue (w.rings.getNext table ctxt cb)
  | .put row random cb => (w.rings.put digest table row random cb).map
      (w.afterOp (.put (putGuid row random) (withGuid row random)))
  | .modify ctxt row cb => (w.rings.modify digest table ctxt row cb).map
      (w.afterOp (.modify ctxt.currentRow.guid row))
  | .remove ctxt cb => w.afterOp (.remove ctxt.currentRow.guid) (w.rings.remove ctxt cb)
  | .putTrigger ctxt f cb => w.after w.rings.queue (w.rings.putTrigger table ctxt f cb)
  | .putTableTrigger sticky f cb =>
    w.after w.rings.queue (w.rings.putTableTrigger table sticky f cb)
  | .removeTrigger tid cb => w.after w.rings.queue (w.rings.removeTrigger table tid cb)
  | .deliver => w.rings.deliver.map (w.after w.rings.queue.tail)

end NoxClassic.Storage
