/-
# Rows, references and triggers of the storage

The data of `src/nox/netapps/storage/storage.hh`.  A `GUID` is 20 bytes that
`memcmp` orders, that is a number below `2^160`.  A row is a hash map from
column names to values; an `AList` keeps its entries in some order, the one an
iteration over the hash map takes.

A `Reference` names one version of a row.  The references a client builds can
hold wildcards, `operator==` matches those with anything, and so is not the
equality of the structure.  The ones the rings store are made by
`Reference(0, guid)` and `version++` only: `RowReference` is the type of these,
and `RowReference.matches` is `operator==` between the two kinds.

SHA-1 (`src/lib/sha1.cc`) enters as the function `digest`; nothing here depends
on what it computes.
-/

import NoxClassic.Lib.OrdMap
import Mathlib.Data.List.AList
import Mathlib.Data.String.Basic
import Mathlib.Order.Fin.Basic
import Mathlib.Algebra.GroupWithZero.Nat

namespace NoxClassic.Storage

open Lib (OrdMap)

/-- `GUID`. -/
abbrev GUID := Fin (2 ^ 160)

instance guid_neZero : NeZero (2 ^ 160) := ⟨by decide⟩

/-- `Column_value`; a `double` is its bit pattern. -/
inductive ColumnValue where
  | int (value : Int64)
  | text (value : String)
  | double (bits : UInt64)
  | guid (value : GUID)
  deriving DecidableEq

/-- The type of a `Column_value`. -/
inductive ColumnType where
  | int | text | double | guid
  deriving DecidableEq

/-- The type `type_checker` compares. -/
def ColumnValue.type : ColumnValue → ColumnType
  | .int _ => .int
  | .text _ => .text
  | .double _ => .double
  | .guid _ => .guid

/-- `Row` and `Query`. -/
abbrev Row := AList fun _ : String => ColumnValue

/-- The eight bytes of a word in memory, the lowest first. -/
def wordBytes (w : UInt64) : List UInt8 :=
  (List.range 8).map fun i => (w >>> (8 * i).toUInt64).toUInt8

/-- What `SHA1_digest` feeds to SHA-1 for a value. -/
def ColumnValue.bytes : ColumnValue → List UInt8
  | .int value => wordBytes value.toUInt64
  | .text value => value.toUTF8.data.toList
  | .double bits => wordBytes bits
  | .guid value => (List.range 20).map fun i => (value.val >>> (8 * (19 - i))).toUInt8

/-- `compute_sguid`: the digest of the values of the columns, in order of their names.  `none`
where the row lacks one of them, which the code then dereferences. -/
def computeSguid (digest : List UInt8 → GUID) (columns : List String) (values : Row) :
    Option GUID :=
  let sorted : OrdMap String Unit := columns.foldl (fun s c => s.insert c ()) OrdMap.empty
  (sorted.entries.mapM fun c => values.lookup c.1).map fun vs => digest (vs.flatMap (·.bytes))

/-- `Reference::ANY_VERSION`. -/
def anyVersion : ℤ := -1

/-- `Reference`. -/
structure Reference where
  version : ℤ
  guid : GUID
  wildcard : Bool
  deriving DecidableEq

/-- `Reference::Reference()`. -/
def Reference.any : Reference := ⟨anyVersion, 0, true⟩

/-- `Reference::operator==`. -/
def Reference.matches (r other : Reference) : Bool :=
  if r.wildcard || other.wildcard then true
  else (r.version = anyVersion || other.version = anyVersion || r.version = other.version) &&
    r.guid = other.guid

theorem Reference.matches_iff (r other : Reference) : r.matches other = true ↔
    r.wildcard = true ∨ other.wildcard = true ∨
      (r.version = anyVersion ∨ other.version = anyVersion ∨ r.version = other.version) ∧
        r.guid = other.guid := by
  unfold Reference.matches
  cases r.wildcard <;> cases other.wildcard <;> simp [or_assoc]

theorem Reference.matches_self (r : Reference) : r.matches r = true :=
  (r.matches_iff r).2 (.inr (.inr ⟨.inr (.inr rfl), rfl⟩))

/-- `Reference::operator<`. -/
def Reference.less (r other : Reference) : Bool :=
  r.guid < other.guid || (r.guid = other.guid && r.version < other.version)

/-- A `Reference` to a version of a row, as the rings keep it. -/
structure RowReference where
  version : ℕ
  guid : GUID
  deriving DecidableEq

/-- The `Reference` it is. -/
def RowReference.toReference (r : RowReference) : Reference := ⟨r.version, r.guid, false⟩

/-- `Reference::operator==` between the row's reference and a client's. -/
def RowReference.matches (r : RowReference) (other : Reference) : Bool :=
  r.toReference.matches other

/-- `id.version++`. -/
def RowReference.next (r : RowReference) : RowReference := { r with version := r.version + 1 }

@[simp] theorem RowReference.next_guid (r : RowReference) : r.next.guid = r.guid := rfl

@[simp] theorem RowReference.next_version (r : RowReference) : r.next.version = r.version + 1 := rfl

theorem RowReference.next_ne (r : RowReference) : r.next ≠ r := by
  intro h
  have := congrArg RowReference.version h
  simp at this

/-- Between references of the rings `operator==` is equality. -/
@[simp] theorem RowReference.matches_toReference (r other : RowReference) :
    r.matches other.toReference = true ↔ r = other := by
  rw [RowReference.matches, Reference.matches_iff]
  constructor
  · rintro (h | h | ⟨h, hg⟩)
    · nomatch h
    · nomatch h
    have hv : r.version = other.version := by
      simp only [RowReference.toReference, anyVersion] at h
      omega
    cases r
    cases other
    exact congrArg₂ RowReference.mk hv hg
  · rintro rfl
    exact .inr (.inr ⟨.inr (.inr rfl), rfl⟩)

/-- `Context`; there is one table, whose name is left out. -/
structure Context where
  index : String
  indexRow : Reference
  initialRow : Reference
  currentRow : Reference
  deriving DecidableEq

/-- `Context::Context()`. -/
def Context.empty : Context := ⟨"", .any, .any, .any⟩

/-- `Result::Code`, those the storage reports about a table there is. -/
inductive Code where
  | success | noMoreRows | concurrentModification | invalidRowOrQuery
  deriving DecidableEq

/-- `Result`. -/
structure Result where
  code : Code
  message : String
  deriving DecidableEq

/-- `Result::Result()`. -/
def Result.ok : Result := ⟨.success, ""⟩

/-- A `Result` with the code `CONCURRENT_MODIFICATION`. -/
def Result.concurrent (message : String) : Result := ⟨.concurrentModification, message⟩

/-- `Trigger_reason`. -/
inductive TriggerReason where
  | insert | modify | remove
  deriving DecidableEq

/-- `Trigger_id`. -/
structure TriggerId where
  forTable : Bool
  ring : String
  ref : Reference
  tid : ℤ
  deriving DecidableEq

/-- The trigger id of a request that failed. -/
def TriggerId.failed : TriggerId := ⟨false, "", .any, -1⟩

/-- `Trigger_id::operator<`. -/
def TriggerId.less (t other : TriggerId) : Bool :=
  if t.ring < other.ring then true
  else if other.ring < t.ring then false
  else if t.ref.less other.ref then true
  else if !t.ref.matches other.ref then false
  else t.tid < other.tid

/-- `map::operator[]` and an assignment, searching with the comparator `less`. -/
def setBy {κ ν : Type*} (less : κ → κ → Bool) (k : κ) (v : ν) : List (κ × ν) → List (κ × ν)
  | [] => [(k, v)]
  | (l, u) :: es =>
    if less k l then (k, v) :: (l, u) :: es
    else if less l k then (l, u) :: setBy less k v es
    else (l, v) :: es

/-- `map::erase`, searching with the comparator `less`. -/
def eraseBy {κ ν : Type*} (less : κ → κ → Bool) (k : κ) : List (κ × ν) → List (κ × ν)
  | [] => []
  | (l, u) :: es =>
    if less l k then (l, u) :: eraseBy less k es
    else if less k l then (l, u) :: es
    else es

/-- `Trigger_map`, for a kind of `Trigger_function`s. -/
abbrev TriggerMap (φ : Type) := List (TriggerId × φ)

end NoxClassic.Storage
