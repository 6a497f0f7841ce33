/-
# The storage with all its tables

`Async_DHT_storage` (`src/nox/netapps/storage/dht-storage.cc`) with any number of
tables, created and dropped at any time.  `System` is one table; here each table that
was ever created is an `Instance` with its own rings, since messages that wait keep
their rings alive after the table was dropped.  The rings of the instances post to one
queue, and an item of it is a message with the instance it runs in.

`content_dhts` and `tables` have the same keys: `tables` here.  `index_dhts` maps the
name of an index ring to the instance whose ring it is.  Creating a table with an index
whose ring has the name of a ring that is there is what `Catalog` is about; it is not a
step here.

A client's calls are numbered.  The number of a call stands for its callback, and the
number of a call to `put_trigger` for the function that it installs.  `log` keeps what
the results speak of: the triggers installed, with the place each is kept at, the calls
to `remove_trigger`, the completions of these and the invocations of triggers.
-/

import NoxClassic.Storage.Catalog
import NoxClassic.Storage.System

namespace NoxClassic.Storage

open List

open Lib (OrdMap)

theorem ringName_ne_empty (table index : String) : Catalog.ringName table index ≠ "" := by
  intro h
  have hlen := congrArg String.length h
  simp [Catalog.ringName] at hlen

/-- The index rings that a creation asks for, under the names they get. -/
def ringIndices (name : String) (indices : List Index) : AList fun _ : String => List String :=
  indices.foldl (fun m i => m.insert (Catalog.ringName name i.name) i.columns) ∅

theorem lookup_ringIndices {name n : String} {indices : List Index}
    (h : ∀ i ∈ indices, Catalog.ringName name i.name ≠ n) :
    (ringIndices name indices).lookup n = none := by
  unfold ringIndices
  induction indices using reverseRecOn with
  | nil => rfl
  | append_singleton is i ih =>
    rw [foldl_append, foldl_cons, foldl_nil, AList.lookup_insert_ne, ih]
    · exact fun j hj => h j (mem_append_left _ hj)
    · exact (h i (mem_append_right _ mem_cons_self)).symm

/-- The types of the columns, with the `GUID` column. -/
def columnTypes (columns : ColumnDefinitions) : AList fun _ : String => ColumnType :=
  AList.insert "GUID" .guid (columns.entries.foldl (fun m c => AList.insert c.1 c.2.type m) ∅)

/-- The table that `create_table` makes. -/
def Table.create (name : String) (columns : ColumnDefinitions) (indices : List Index) : Table where
  name := name
  columns := columnTypes columns
  indices := ringIndices name indices
  guid_column := AList.lookup_insert _
  index_names := lookup_ringIndices fun i _ => ringName_ne_empty name i.name

/-- A table that was created, with its rings; their queue is empty between the steps. -/
structure Instance where
  table : Table
  rings : Rings

/-- The names of its rings. -/
def Instance.names (i : Instance) : List String := i.table.name :: i.table.indices.keys

/-- Where a trigger is kept: with a row, with an entry of an index, or with the table. -/
inductive Place where
  | content (guid : GUID)
  | index (name : String) (sguid : GUID)
  | sticky
  | nonsticky
  deriving DecidableEq

/-- What the results speak of; `f` and `c` are numbers of calls. -/
inductive Event where
  | putTrigger (f : ℕ) (inst : ℕ) (place : Place) (tid : TriggerId)
  | removeTrigger (c : ℕ) (tid : TriggerId)
  | removed (c : ℕ) (result : Result)
  | invoked (f : ℕ)
  deriving DecidableEq

/-- `Async_DHT_storage`. -/
structure Store where
  instances : ℕ → Option Instance
  next : ℕ
  tables : AList fun _ : String => ℕ
  indexDhts : AList fun _ : String => ℕ
  queue : List (Option ℕ × Msg)
  calls : ℕ
  log : List Event

namespace Store

/-- The storage as it starts. -/
def empty : Store := ⟨fun _ => none, 0, ∅, ∅, [], 0, []⟩

/-- The rings of an instance have changed, and posted what is in their queue. -/
def take (s : Store) (k : ℕ) (i : Instance) (r : Rings) : Store :=
  { s with
    instances := Function.update s.instances k (some { i with rings := { r with queue := [] } })
    queue := s.queue ++ r.queue.map fun m => (some k, m) }

/-- The storage itself posts an answer. -/
def reply (s : Store) (m : Msg) : Store := { s with queue := s.queue ++ [(none, m)] }

/-- A call on the table `table`, which answers `missing` where there is none. -/
def call (s : Store) (table : String) (missing : Msg) (op : Instance → Option Rings) :
    Option Store :=
  match s.tables.lookup table with
  | none => some { s.reply missing with calls := s.calls + 1 }
  | some k => do
    let i ← s.instances k
    let r ← op i
    return { s.take k i r with calls := s.calls + 1 }

/-- The storage with one more table and its index rings. -/
def added (s : Store) (table : String) (new : Instance) (names : List String) : Store :=
  { s with
    instances := Function.update s.instances s.next (some new)
    next := s.next + 1
    tables := s.tables.insert table s.next
    indexDhts := names.foldl (fun m n => m.insert n s.next) s.indexDhts }

/-- `create_table`. -/
def createTable (s : Store) (table : String) (columns : ColumnDefinitions)
    (indices : List Index) : Option Store :=
  let names := indices.map fun i => Catalog.ringName table i.name
  if table ∈ s.tables then some s
  else if names.dedup.length ≠ names.length then some s
  else if ∃ n ∈ names, n ∈ s.indexDhts then none
  else some (s.added table ⟨Table.create table columns indices, .initial⟩ names)

/-- `drop_table`. -/
def dropTable (s : Store) (table : String) : Option Store :=
  match s.tables.lookup table with
  | none => some s
  | some k => do
    let i ← s.instances k
    return { s with
      tables := s.tables.erase table
      indexDhts := i.table.indices.keys.foldl (fun m n => m.erase n) s.indexDhts }

/-- What `validate_column_types` says of a table that is not there. -/
def noTable (table : String) : String := "table '" ++ table ++ "' doesn't exist."

/-- `get_next`; the index ring is found by its name alone. -/
def getNext (s : Store) (table : String) (ctxt : Context) : Option Store :=
  let removed : Msg := .getReply s.calls (.concurrent "Table removed while iterating.") ctxt ∅
  s.call table removed fun i =>
    if ctxt.index ≠ "" then
      match s.indexDhts.lookup ctxt.index with
      | none => some (i.rings.post [removed])
      | some k => do
        let other ← s.instances k
        let read := { other.rings with queue := [] }.indexGetNext ctxt s.calls
        return i.rings.post read.queue
    else some (i.rings.contentGetNext ctxt s.calls)

/-- The trigger that an answer of `put_trigger` says was installed. -/
def installed (k : ℕ) (place : Place) : Msg → Option Event
  | .putTriggerReply f ⟨.success, _⟩ tid => some (.putTrigger f k place tid)
  | _ => none

/-- A call of `put_trigger`, which notes the trigger that was installed. -/
def install (s : Store) (table : String) (place : Place) (op : Instance → Rings) :
    Option Store := do
  let missing : Msg := .putTriggerReply s.calls (.concurrent "\"Table dropped.\"") .failed
  let s' ← s.call table missing fun i => some (op i)
  let new := (s'.queue.drop s.queue.length).filterMap fun m =>
    m.1.bind fun k => installed k place m.2
  return { s' with log := new ++ s.log }

/-- Where `put_trigger` keeps the trigger of a context. -/
def placeOf (ctxt : Context) : Place :=
  if ctxt.index = "" then .content ctxt.currentRow.guid
  else .index ctxt.index ctxt.indexRow.guid

/-- `remove_trigger`: the ring is sought among the index rings, and then among the tables. -/
def removeTrigger (s : Store) (tid : TriggerId) : Option Store :=
  let c := s.calls
  let log : List Event := .removeTrigger c tid :: s.log
  match (s.indexDhts.lookup tid.ring).or (s.tables.lookup tid.ring) with
  | none => some { s.reply (.removeReply (some c) (.concurrent "Table removed.")) with
      calls := c + 1, log }
  | some k => do
    let i ← s.instances k
    return { s.take k i (i.rings.removeTrigger i.table tid c) with calls := c + 1, log }

/-- What the delivery of a message tells. -/
def told : Msg → Option Event
  | .trigger f _ _ _ => some (.invoked f)
  | .removeReply (some c) result => some (.removed c result)
  | _ => none

/-- The dispatcher runs the first message of the queue. -/
def deliver (s : Store) : Option Store :=
  match s.queue with
  | [] => none
  | (k, m) :: queue =>
    let s := { s with queue, log := (told m).toList ++ s.log }
    match k with
    | none => some s
    | some k => do
      let i ← s.instances k
      return s.take k i (i.rings.handle m)

/-- What the clients and the dispatcher do. -/
inductive Act where
  | createTable (table : String) (columns : ColumnDefinitions) (indices : List Index)
  | dropTable (table : String)
  | get (table : String) (query : Row)
  | getNext (table : String) (ctxt : Context)
  | put (table : String) (row : Row) (random : GUID)
  | modify (table : String) (ctxt : Context) (row : Row)
  | remove (table : String) (ctxt : Context)
  | putTrigger (table : String) (ctxt : Context)
  | putTableTrigger (table : String) (sticky : Bool)
  | removeTrigger (tid : TriggerId)
  | deliver

/-- One step. -/
def step (digest : List UInt8 → GUID) (s : Store) : Act → Option Store
  | .createTable table columns indices => s.createTable table columns indices
  | .dropTable table => s.dropTable table
  | .get table query =>
    s.call table (.getReply s.calls ⟨.invalidRowOrQuery, noTable table⟩ .empty ∅) fun i =>
      i.rings.get digest i.table query s.calls
  | .getNext table ctxt => s.getNext table ctxt
  | .put table row random =>
    s.call table (.putReply s.calls ⟨.invalidRowOrQuery, noTable table⟩ 0) fun i =>
      (i.rings.put digest i.table row random s.calls).map (·.2)
  | .modify table ctxt row =>
    s.call table (.modifyReply s.calls (.concurrent (noTable table)) .empty) fun i =>
      (i.rings.modify digest i.table ctxt row s.calls).map (·.2)
  | .remove table ctxt =>
    s.call table (.removeReply (some s.calls) (.concurrent "table + \" removed.\"")) fun i =>
      some (i.rings.remove ctxt s.calls).2
  | .putTrigger table ctxt =>
    s.install table (placeOf ctxt) fun i => i.rings.putTrigger i.table ctxt s.calls s.calls
  | .putTableTrigger table sticky =>
    s.install table (if sticky then .sticky else .nonsticky) fun i =>
      i.rings.putTableTrigger i.table sticky s.calls s.calls
  | .removeTrigger tid => s.removeTrigger tid
  | .deliver => s.deliver

end Store
end NoxClassic.Storage
