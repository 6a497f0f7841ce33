/-
# The names of a location

`Bindings_Storage::get_names_for_location`
(`src/nox/netapps/bindings_storage/bindings_storage.cc`) reads the names of a port of a
switch from the location table.  For a `LOC_TUPLE` it also reads the names of the switch and
of the port, and joins the three with `#`; a `#` or a backslash of a name is escaped by a
backslash first, so that a reader can take the tuple apart.

A lookup is three scans of the table.  The names that a scan finds are given, and how the
scan of the location's names ends.
-/

import Mathlib.Data.Int.Notation
import Mathlib.Data.List.Basic

namespace NoxClassic.LocationNames

open List

/-- A `std::string`. -/
abbrev Str := List Char

/-- `Name::Type`. -/
inductive NameType where
  | none | location | host | user | switch | port | locTuple
  | locationGroup | hostGroup | userGroup | switchGroup
  deriving DecidableEq

/-- A `Name`. -/
structure Name where
  name : Str
  nameType : NameType
  id : ℤ
  deriving DecidableEq

/-- How a scan of the location table ends. -/
inductive ScanEnd where
  | noMoreRows
  | failed

/-- What is asked for, and what the scans find. -/
structure Lookup where
  type : NameType
  dpid : Str
  port : ℕ
  locNames : List Name
  switches : List Name
  ports : List Name

/-- `Bindings_Storage::str_replace`, which is called with one character as the target. -/
def strReplace (s : Str) (target : Char) (replace : Str) : Str :=
  s.flatMap fun c => if c = target then replace else [c]

/-- The two replacements that each part of a tuple goes through. -/
def escape (s : Str) : Str :=
  strReplace (strReplace s '\\' ['\\', '\\']) '#' ['\\', '#']

/-- The loop of `get_locnames_cb3`.  It writes the escaped names of the switch and of the port
over the names themselves. -/
def appendTuples : Str → Str → List Name → List Name
  | _, _, [] => []
  | switchName, portname, n :: names =>
    let switchName := escape switchName
    let portname := escape portname
    { n with name := escape n.name ++ '#' :: (switchName ++ '#' :: portname) } ::
      appendTuples switchName portname names

namespace Lookup

/-- The name of the switch that `get_locnames_cb2` goes on with. -/
def switchName (q : Lookup) : Str :=
  match q.switches with
  | n :: _ => n.name
  | [] => "none;".toList ++ q.dpid

/-- The name of the port in `get_locnames_cb3`. -/
def portname (q : Lookup) : Str :=
  match q.ports with
  | n :: _ => n.name
  | [] => (toString q.port).toList

/-- The names of the location; if it has none, its switch and port make one. -/
def names (q : Lookup) : List Name :=
  match q.locNames with
  | [] => [⟨q.switchName ++ ':' :: q.portname, .location, -1⟩]
  | ns => ns

/-- `get_locnames_cb3`. -/
def getLocnamesCb3 (q : Lookup) : List Name :=
  if q.type = .locTuple then appendTuples q.switchName q.portname q.names else q.names

/-- `get_locnames_cb`, when the scan of the location's names ends. -/
def getLocnamesCb (q : Lookup) : ScanEnd → List Name
  | .failed => q.locNames
  | .noMoreRows =>
    if (q.locNames.length = 0 ∧ q.type = .location) ∨ q.type = .locTuple then q.getLocnamesCb3
    else q.locNames

end Lookup

/-! ### Reading a tuple -/

/-- One more character for the first part. -/
def consPart (c : Char) : List Str → List Str
  | [] => [[c]]
  | s :: parts => (c :: s) :: parts

/-- The parts of a tuple: split at each `#` without a backslash, and unescaped. -/
def parts : Str → List Str
  | [] => [[]]
  | '#' :: s => [] :: parts s
  | '\\' :: c :: s => consPart c (parts s)
  | c :: s => consPart c (parts s)

theorem parts_cons {c : Char} (hhash : c ≠ '#') (hback : c ≠ '\\') (s : Str) :
    parts (c :: s) = consPart c (parts s) := by
  conv_lhs => unfold parts
  split <;> simp_all

theorem escape_cons (c : Char) (s : Str) : escape (c :: s) =
    (if c = '\\' then ['\\', '\\'] else if c = '#' then ['\\', '#'] else [c]) ++ escape s := by
  by_cases hback : c = '\\'
  · simp [escape, strReplace, hback]
  · by_cases hhash : c = '#' <;> simp [escape, strReplace, hback, hhash]

/-- An escaped character is read as itself. -/
theorem parts_escape_cons (c : Char) (s rest : Str) :
    parts (escape (c :: s) ++ rest) = consPart c (parts (escape s ++ rest)) := by
  rw [escape_cons]
  by_cases hback : c = '\\'
  · simp [hback, parts]
  · by_cases hhash : c = '#'
    · simp [hhash, parts]
    · rw [if_neg hback, if_neg hhash]
      exact parts_cons hhash hback _

/-- An escaped text is one part, up to the `#` after it. -/
theorem parts_escape_hash (s rest : Str) : parts (escape s ++ '#' :: rest) = s :: parts rest := by
  induction s with
  | nil => rfl
  | cons c s ih => rw [parts_escape_cons, ih, consPart]

theorem parts_escape (s : Str) : parts (escape s) = [s] := by
  induction s with
  | nil => rfl
  | cons c s ih =>
    have hcons := parts_escape_cons c s []
    rw [append_nil, append_nil, ih] at hcons
    exact hcons

/-! ### The tuples of a lookup -/

/-- A text with nothing to escape. -/
def Plain (s : Str) : Prop := '#' ∉ s ∧ '\\' ∉ s

instance (s : Str) : Decidable (Plain s) := inferInstanceAs (Decidable (_ ∧ _))

theorem escape_of_plain {s : Str} (h : Plain s) : escape s = s := by
  induction s with
  | nil => rfl
  | cons c s ih =>
    obtain ⟨hhash, hback⟩ := h
    rw [mem_cons, not_or] at hhash hback
    rw [escape_cons, if_neg (Ne.symm hback.1), if_neg (Ne.symm hhash.1), ih ⟨hhash.2, hback.2⟩]
    rfl

theorem length_le_escape (s : Str) : s.length ≤ (escape s).length := by
  induction s with
  | nil => exact Nat.zero_le _
  | cons c s ih =>
    rw [escape_cons, length_append, length_cons]
    split_ifs <;> simp only [length_cons, length_nil] <;> omega

/-- Escaping makes a text longer that is not plain. -/
theorem plain_of_length_le {s : Str} (h : (escape s).length ≤ s.length) : Plain s := by
  induction s with
  | nil => exact ⟨not_mem_nil, not_mem_nil⟩
  | cons c s ih =>
    have hle := length_le_escape s
    rw [escape_cons, length_append, length_cons] at h
    split_ifs at h with hback hhash
    · simp only [length_cons, length_nil] at h
      omega
    · simp only [length_cons, length_nil] at h
      omega
    · obtain ⟨hs, hs'⟩ := ih (by simp only [length_cons, length_nil] at h; omega)
      exact ⟨not_mem_cons_of_ne_of_not_mem (Ne.symm hhash) hs,
        not_mem_cons_of_ne_of_not_mem (Ne.symm hback) hs'⟩

theorem escape_eq_iff {s : Str} : escape s = s ↔ Plain s :=
  ⟨fun h => plain_of_length_le (Nat.le_of_eq (congrArg length h)), escape_of_plain⟩

variable {switchName portname : Str}

/-- The first tuple is read back, whatever the names are. -/
theorem parts_appendTuples_cons (n : Name) (names : List Name) :
    (appendTuples switchName portname (n :: names)).map (fun n => parts n.name) =
      [n.name, switchName, portname] ::
        (appendTuples (escape switchName) (escape portname) names).map fun n => parts n.name := by
  rw [appendTuples, map_cons, parts_escape_hash, parts_escape_hash, parts_escape]

/-- All tuples are, where escaping the names of the switch and of the port again does nothing. -/
theorem parts_appendTuples (hs : Plain switchName) (hp : Plain portname) (names : List Name) :
    (appendTuples switchName portname names).map (fun n => parts n.name) =
      names.map fun n => [n.name, switchName, portname] := by
  induction names with
  | nil => rfl
  | cons n names ih =>
    rw [parts_appendTuples_cons, escape_of_plain hs, escape_of_plain hp, ih, map_cons]

/-- **A tuple is read back** as the names of the location, the switch and the port, for each name
of the location, exactly where there is one name at most or the names of the switch and of the port
have nothing to escape. -/
theorem tuples_read_back (q : Lookup) (htype : q.type = .locTuple) :
    (q.getLocnamesCb .noMoreRows).map (fun n => parts n.name) =
      q.names.map (fun n => [n.name, q.switchName, q.portname]) ↔
    q.locNames.length ≤ 1 ∨ Plain q.switchName ∧ Plain q.portname := by
  unfold Lookup.getLocnamesCb Lookup.getLocnamesCb3
  rw [if_pos (.inr htype), if_pos htype]
  constructor
  · intro h
    unfold Lookup.names at h
    rcases hnames : q.locNames with _ | ⟨n, _ | ⟨m, ns⟩⟩
    · exact .inl (Nat.zero_le _)
    · exact .inl (Nat.le_refl 1)
    · -- the second tuple has the names escaped twice
      rw [hnames] at h
      simp only [parts_appendTuples_cons, map_cons, cons.injEq, true_and, and_true] at h
      exact .inr ⟨escape_eq_iff.1 h.1.1, escape_eq_iff.1 h.1.2⟩
  · rintro (hone | ⟨hs, hp⟩)
    · obtain ⟨n, hn⟩ : ∃ n, q.names = [n] := by
        unfold Lookup.names
        rcases hnames : q.locNames with _ | ⟨n, _ | ⟨m, ns⟩⟩
        · exact ⟨_, rfl⟩
        · exact ⟨n, rfl⟩
        · rw [hnames, length_cons, length_cons] at hone
          omega
      rw [hn, parts_appendTuples_cons, map_singleton]
      rfl
    · exact parts_appendTuples hs hp _

/-- A port with two names, on the switch with a name. -/
def twoNames (switch : Str) : Lookup where
  type := .locTuple
  dpid := []
  port := 1
  locNames := [⟨['x'], .location, 1⟩, ⟨['#', 'y'], .location, 2⟩]
  switches := [⟨switch, .switch, 3⟩]
  ports := []

theorem tuples_read_back_two :
    ((twoNames ['a', 'b']).getLocnamesCb .noMoreRows).map (fun n => parts n.name) =
      [[['x'], ['a', 'b'], ['1']], [['#', 'y'], ['a', 'b'], ['1']]] :=
  (tuples_read_back (twoNames ['a', 'b']) rfl).2 (.inr ⟨by decide, by decide⟩)

/-- The name of the switch is escaped again for the second name of the location. -/
theorem switch_escaped_twice :
    ((twoNames ['a', '#', 'b']).getLocnamesCb .noMoreRows).map (fun n => parts n.name) =
      [[['x'], ['a', '#', 'b'], ['1']], [['#', 'y'], ['a', '\\', '#', 'b'], ['1']]] := by
  decide

end NoxClassic.LocationNames
