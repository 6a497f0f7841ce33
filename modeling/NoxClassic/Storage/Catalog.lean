/-
# The tables of the storage and their index rings

`Async_DHT_storage::create_table` and `drop_table`
(`src/nox/netapps/storage/dht-storage.cc`).  All index rings are in one hash map,
under the name of the table, an underscore and the name of the index.  A ring is
an object that others point to, so it has a number here, and `indexRings` is what
the objects hold; the contents change between the calls in any way (`Act.write`),
as the rows of the tables do.

Two pairs of names can give one name of a ring: a table `a` with the index `b_c`
and a table `a_b` with the index `c`.  The second to be created then replaces the
ring of the first, and the first to be dropped takes the ring of the other with it
(`ring_shared`).  As long as no table is created with an index whose ring would get the
name of a ring of a live table, the tables are apart (`tables_apart`).
-/

import NoxClassic.Lib.Run
import NoxClassic.Storage.Rings
import Mathlib.Data.List.Induction

namespace NoxClassic.Storage

open List Option AList Function

open Lib (OrdMap)

/-- `Index`. -/
structure Index where
  name : String
  columns : List String
  deriving DecidableEq

/-- `Column_definition_map`: the value of a column is only an example of its type. -/
abbrev ColumnDefinitions := AList fun _ : String => ColumnValue

/-- `Table_definition`. -/
structure TableDefinition where
  columns : ColumnDefinitions
  indices : AList fun _ : String => Index

/-- `to_list`. -/
def TableDefinition.toList (d : TableDefinition) : List Index := d.indices.entries.map (·.2)

/-- `is_equal`. -/
def isEqual (c₁ : ColumnDefinitions) (i₁ : List Index) (c₂ : ColumnDefinitions)
    (i₂ : List Index) : Bool :=
  let toMap (is : List Index) : AList fun _ : String => List String :=
    is.foldl (fun h i => h.insert i.name i.columns) ∅
  c₁.entries.length = c₂.entries.length && i₁.length = i₂.length &&
    (c₁.entries.all fun v => c₂.lookup v.1 = some v.2) &&
    (toMap i₁).entries.length = (toMap i₂).entries.length &&
    (toMap i₁).entries.all fun v => (toMap i₂).lookup v.1 = some v.2

/-- `Result::Code`, those of the two calls. -/
inductive TableCode where
  | success | existingTable | nonexistingTable | invalidRowOrQuery
  deriving DecidableEq

/-- The `Result` of the two calls. -/
structure TableResult where
  code : TableCode
  message : String
  deriving DecidableEq

/-- `Async_DHT_storage`, with what its rings hold and the number of the next one. -/
structure Catalog where
  tables : AList fun _ : String => TableDefinition
  contentDhts : AList fun _ : String => ℕ
  indexDhts : AList fun _ : String => ℕ
  indexRings : ℕ → OrdMap GUID IndexEntry
  next : ℕ

namespace Catalog

/-- The storage as it starts. -/
def empty : Catalog := ⟨∅, ∅, ∅, fun _ => OrdMap.empty, 0⟩

/-- The name of the ring of an index. -/
def ringName (table index : String) : String := table ++ "_" ++ index

/-- `index_dhts[v.name] = Index_DHT_ptr(new Index_DHT(v.name, this))`. -/
def addRing (c : Catalog) (name : String) : Catalog :=
  { c with
    indexDhts := c.indexDhts.insert name c.next
    indexRings := update c.indexRings c.next OrdMap.empty
    next := c.next + 1 }

/-- `Async_DHT_storage::create_table`. -/
def createTable (c : Catalog) (table : String) (columns : ColumnDefinitions)
    (indices : List Index) : TableResult × Catalog :=
  let columns := columns.insert "GUID" (.guid 0)
  let indices := indices.map fun i => { i with name := ringName table i.name }
  match c.tables.lookup table with
  | some d =>
    if isEqual columns indices d.columns d.toList then (⟨.success, ""⟩, c)
    else (⟨.existingTable, "Table already exists with a different schema."⟩, c)
  | none =>
    if (indices.map Index.name).dedup.length ≠ indices.length then
      (⟨.invalidRowOrQuery, "duplicate indices defined."⟩, c)
    else
      let c := (indices.map Index.name).foldl addRing c
      (⟨.success, ""⟩,
        { c with
          contentDhts := c.contentDhts.insert table c.next
          tables := c.tables.insert table
            ⟨columns, indices.foldl (fun m i => m.insert i.name i) ∅⟩
          next := c.next + 1 })

/-- `Async_DHT_storage::drop_table`. -/
def dropTable (c : Catalog) (table : String) : TableResult × Catalog :=
  match c.tables.lookup table with
  | none => (⟨.nonexistingTable, table ++ " does not exist."⟩, c)
  | some d =>
    (⟨.success, ""⟩,
      { c with
        contentDhts := c.contentDhts.erase table
        indexDhts := d.indices.keys.foldl (fun m n => m.erase n) c.indexDhts
        tables := c.tables.erase table })

/-- The calls, and a change of what a ring holds. -/
inductive Act where
  | create (table : String) (columns : ColumnDefinitions) (indices : List Index)
  | drop (table : String)
  | write (ring : ℕ) (contents : OrdMap GUID IndexEntry)

/-- One step. -/
def step (c : Catalog) : Act → Option Catalog
  | .create table columns indices => some (c.createTable table columns indices).2
  | .drop table => some (c.dropTable table).2
  | .write ring contents =>
    some { c with indexRings := update c.indexRings ring contents }

/-- The live table `table` uses the ring: one of its indices has it. -/
def Uses (c : Catalog) (table : String) (ring : ℕ) : Prop :=
  ∃ d n, c.tables.lookup table = some d ∧ n ∈ d.indices ∧ c.indexDhts.lookup n = some ring

/-- What is in the ring under a name. -/
def contents (c : Catalog) (name : String) : Option (OrdMap GUID IndexEntry) :=
  (c.indexDhts.lookup name).map c.indexRings

/-- A new table is created only when no index of it gets the name of an index of a live table. -/
def NamesApart (c : Catalog) : Act → Prop
  | .create table _ indices => table ∉ c.tables →
    ∀ x ∈ c.tables.entries, ∀ i ∈ indices, ringName table i.name ∉ x.2.indices
  | _ => True

instance (c : Catalog) (act : Act) : Decidable (NamesApart c act) :=
  match act with
  | .create table _ indices => inferInstanceAs (Decidable (table ∉ c.tables →
    ∀ x ∈ c.tables.entries, ∀ i ∈ indices, ringName table i.name ∉ x.2.indices))
  | .drop _ => isTrue trivial
  | .write _ _ => isTrue trivial

/-! ### The rings a creation adds -/

/-- `c'` is `c` with new, empty rings under the names. -/
structure Added (c : Catalog) (names : List String) (c' : Catalog) : Prop where
  tables : c'.tables = c.tables
  contentDhts : c'.contentDhts = c.contentDhts
  next : c.next ≤ c'.next
  other : ∀ n, n ∉ names → c'.indexDhts.lookup n = c.indexDhts.lookup n
  new : ∀ n ∈ names, ∃ r, c'.indexDhts.lookup n = some r ∧ c.next ≤ r ∧ r < c'.next
  rings : ∀ r < c.next, c'.indexRings r = c.indexRings r
  inj : ∀ n ∈ names, ∀ n' ∈ names, ∀ r, c'.indexDhts.lookup n = some r →
    c'.indexDhts.lookup n' = some r → n = n'

theorem added_foldl (c : Catalog) (names : List String) :
    Added c names (names.foldl addRing c) := by
  induction names using List.reverseRecOn with
  | nil =>
    exact ⟨rfl, rfl, Nat.le_refl _, fun _ _ => rfl, fun n hn => absurd hn not_mem_nil,
      fun _ _ => rfl, nofun⟩
  | append_singleton names name ih =>
    rw [foldl_append, foldl_cons, foldl_nil]
    set c' := names.foldl addRing c with hc'
    have hself : (c'.addRing name).indexDhts.lookup name = some c'.next := lookup_insert _
    have hne : ∀ n, n ≠ name → (c'.addRing name).indexDhts.lookup n = c'.indexDhts.lookup n :=
      fun n hn => lookup_insert_ne hn
    have hmem : ∀ n, n ∈ names ++ [name] → n ≠ name → n ∈ names := fun n hn hname =>
      (mem_append.1 hn).resolve_right fun h => hname (mem_singleton.1 h)
    refine ⟨ih.tables, ih.contentDhts, ih.next.trans (Nat.le_succ _), fun n hn => ?_,
      fun n hn => ?_, fun r hr => ?_, fun n hn n' hn' r hr hr' => ?_⟩
    · have hnot := mt mem_append.2 hn
      rw [not_or] at hnot
      rw [hne n fun h => hnot.2 (mem_singleton.2 h)]
      exact ih.other n hnot.1
    · by_cases h : n = name
      · subst h
        exact ⟨c'.next, hself, ih.next, Nat.lt_succ_self _⟩
      · obtain ⟨r, hr, hle, hlt⟩ := ih.new n (hmem n hn h)
        exact ⟨r, (hne n h).trans hr, hle, hlt.trans (Nat.lt_succ_self _)⟩
    · have hr' : r ≠ c'.next := by
        have := ih.next
        omega
      exact (update_of_ne hr' _ _).trans (ih.rings r hr)
    · -- an older name has a ring with a smaller number than the new one
      have hold : ∀ m, m ∈ names ++ [name] → m ≠ name → ∀ s,
          (c'.addRing name).indexDhts.lookup m = some s → s ≠ c'.next := by
        intro m hm h s hs
        obtain ⟨s', hs', -, hlt⟩ := ih.new m (hmem m hm h)
        rw [hne m h, hs', some.injEq] at hs
        omega
      by_cases h : n = name
      · by_cases h' : n' = name
        · exact h.trans h'.symm
        · rw [h, hself, some.injEq] at hr
          exact absurd hr.symm (hold n' hn' h' r hr')
      · by_cases h' : n' = name
        · rw [h', hself, some.injEq] at hr'
          exact absurd hr'.symm (hold n hn h r hr)
        · rw [hne n h] at hr
          rw [hne n' h'] at hr'
          exact ih.inj n (hmem n hn h) n' (hmem n' hn' h') r hr hr'

/-- The keys of a map that is filled from a list. -/
theorem mem_foldl_insert {α ν : Type} (key : α → String) (val : α → ν) (l : List α) (n : String) :
    (n ∈ l.foldl (fun m a => m.insert (key a) (val a)) (∅ : AList fun _ : String => ν)) ↔
      n ∈ l.map key := by
  induction l using List.reverseRecOn with
  | nil => simp
  | append_singleton l a ih =>
    rw [foldl_append, foldl_cons, foldl_nil, mem_insert, ih,
      map_append, mem_append, map_singleton, mem_singleton, or_comm]

/-- A map whose keys are changed one by one, all to the same. -/
theorem lookup_foldl {ν : Type} {f : (AList fun _ : String => ν) → String → AList fun _ => ν}
    {v : Option ν} (hself : ∀ m n, (f m n).lookup n = v)
    (hother : ∀ m {n name}, n ≠ name → (f m name).lookup n = m.lookup n) (names : List String)
    (m : AList fun _ : String => ν) (n : String) :
    (names.foldl f m).lookup n = if n ∈ names then v else m.lookup n := by
  induction names generalizing m with
  | nil => rfl
  | cons name names ih =>
    rw [foldl_cons, ih]
    by_cases h : n ∈ names
    · rw [if_pos h, if_pos (mem_cons_of_mem _ h)]
    · rw [if_neg h]
      by_cases hn : n = name
      · subst hn
        rw [hself, if_pos mem_cons_self]
      · rw [hother m hn, if_neg (not_mem_cons_of_ne_of_not_mem hn h)]

/-- What is left of a map when keys are erased. -/
theorem lookup_foldl_erase {ν : Type} (names : List String) (m : AList fun _ : String => ν)
    (n : String) : (names.foldl (fun m n => m.erase n) m).lookup n =
      if n ∈ names then none else m.lookup n :=
  lookup_foldl (fun _ _ => lookup_erase ..) (fun _ _ _ h => lookup_erase_ne h) names m n

/-! ### The invariant -/

/-- The indices of the live tables are under different names, each with its own ring. -/
structure Inv (c : Catalog) : Prop where
  apart : ∀ t d t' d', t ≠ t' → c.tables.lookup t = some d → c.tables.lookup t' = some d' →
    ∀ n ∈ d.indices, n ∉ d'.indices
  ring : ∀ t d, c.tables.lookup t = some d → ∀ n ∈ d.indices, ∃ r, c.indexDhts.lookup n = some r
  below : ∀ n r, c.indexDhts.lookup n = some r → r < c.next
  inj : ∀ n n' r, c.indexDhts.lookup n = some r → c.indexDhts.lookup n' = some r → n = n'

theorem inv_empty : Inv empty := ⟨nofun, nofun, nofun, nofun⟩

/-- The table `t` is as it was, and so are its rings. -/
def Same (c c' : Catalog) (t : String) : Prop :=
  ∀ d, c.tables.lookup t = some d →
    c'.tables.lookup t = some d ∧ ∀ n ∈ d.indices, c'.contents n = c.contents n

/-- What a call does to the catalog: it keeps the invariant and the other tables. -/
theorem Inv.createTable {c : Catalog} (h : Inv c) (table : String) (columns : ColumnDefinitions)
    (indices : List Index) (hnames : NamesApart c (.create table columns indices)) :
    Inv (c.createTable table columns indices).2 ∧
      ∀ t, t ≠ table → Same c (c.createTable table columns indices).2 t := by
  have hsame : ∀ t, Same c c t := fun t d hd => ⟨hd, fun _ _ => rfl⟩
  unfold Catalog.createTable
  cases hlook : c.tables.lookup table with dsimp only
  | some d =>
    split <;> exact ⟨h, fun t _ => hsame t⟩
  | none =>
    split
    · exact ⟨h, fun t _ => hsame t⟩
    set is := indices.map fun i => { i with name := ringName table i.name } with his
    set names := is.map Index.name with hnames'
    have hadd := added_foldl c names
    set c' := names.foldl addRing c with hc'
    -- the names of the other tables are not among the new ones
    have hother : ∀ t d, c.tables.lookup t = some d → ∀ n ∈ d.indices, n ∉ names := by
      intro t d hd n hn hmem
      simp only [hnames', his, List.map_map, List.mem_map, comp_apply] at hmem
      obtain ⟨i, hi, rfl⟩ := hmem
      exact hnames (lookup_eq_none.1 hlook) ⟨t, d⟩ (mem_lookup_iff.1 hd) i hi hn
    have htables : ∀ t, t ≠ table → ∀ v,
        (c'.tables.insert table v).lookup t = c.tables.lookup t := by
      intro t ht v
      rw [lookup_insert_ne ht, hadd.tables]
    refine ⟨⟨?_, ?_, ?_, ?_⟩, ?_⟩
    · intro t d t' d' hne hd hd' n hn hn'
      by_cases ht : t = table
      · subst ht
        replace hd := some.inj ((lookup_insert _).symm.trans hd)
        rw [← hd] at hn
        exact hother t' d' ((htables t' (Ne.symm hne) _).symm.trans hd') n hn'
          ((mem_foldl_insert Index.name id is n).1 hn)
      · replace hd := (htables t ht _).symm.trans hd
        by_cases ht' : t' = table
        · subst ht'
          replace hd' := some.inj ((lookup_insert _).symm.trans hd')
          rw [← hd'] at hn'
          exact hother t d hd n hn ((mem_foldl_insert Index.name id is n).1 hn')
        · exact h.apart t d t' d' hne hd ((htables t' ht' _).symm.trans hd') n hn hn'
    · intro t d hd n hn
      by_cases ht : t = table
      · subst ht
        replace hd := some.inj ((lookup_insert _).symm.trans hd)
        rw [← hd] at hn
        obtain ⟨r, hr, -⟩ := hadd.new n ((mem_foldl_insert Index.name id is n).1 hn)
        exact ⟨r, hr⟩
      · replace hd := (htables t ht _).symm.trans hd
        obtain ⟨r, hr⟩ := h.ring t d hd n hn
        exact ⟨r, (hadd.other n (hother t d hd n hn)).trans hr⟩
    · intro n r hr
      by_cases hn : n ∈ names
      · obtain ⟨r', hr', -, hlt⟩ := hadd.new n hn
        obtain rfl := some.inj (hr'.symm.trans hr)
        exact hlt.trans (Nat.lt_succ_self _)
      · have := h.below n r ((hadd.other n hn).symm.trans hr)
        have := hadd.next
        show r < c'.next + 1
        omega
    · intro n n' r hr hr'
      -- the numbers of the new rings are above all the others
      have hnew : ∀ m ∈ names, ∀ m', m' ∉ names → c'.indexDhts.lookup m = some r →
          c'.indexDhts.lookup m' = some r → False := by
        intro m hm m' hm' hr hr'
        obtain ⟨s, hs, hle, -⟩ := hadd.new m hm
        obtain rfl := some.inj (hs.symm.trans hr)
        have := h.below m' s ((hadd.other m' hm').symm.trans hr')
        omega
      by_cases hn : n ∈ names
      · by_cases hn' : n' ∈ names
        · exact hadd.inj n hn n' hn' r hr hr'
        · exact (hnew n hn n' hn' hr hr').elim
      · by_cases hn' : n' ∈ names
        · exact (hnew n' hn' n hn hr' hr).elim
        · exact h.inj n n' r ((hadd.other n hn).symm.trans hr) ((hadd.other n' hn').symm.trans hr')
    · intro t ht d hd
      refine ⟨(htables t ht _).trans hd, fun n hn => ?_⟩
      obtain ⟨r, hr⟩ := h.ring t d hd n hn
      show (c'.indexDhts.lookup n).map c'.indexRings = (c.indexDhts.lookup n).map c.indexRings
      rw [hadd.other n (hother t d hd n hn), hr, map_some, map_some, hadd.rings r (h.below n r hr)]

theorem Inv.dropTable {c : Catalog} (h : Inv c) (table : String) :
    Inv (c.dropTable table).2 ∧ ∀ t, t ≠ table → Same c (c.dropTable table).2 t := by
  unfold Catalog.dropTable
  cases hlook : c.tables.lookup table with
  | none => exact ⟨h, fun t _ d hd => ⟨hd, fun _ _ => rfl⟩⟩
  | some d0 =>
    have htables : ∀ t d, (c.tables.erase table).lookup t = some d →
        t ≠ table ∧ c.tables.lookup t = some d := by
      intro t d hd
      by_cases ht : t = table
      · rw [ht, lookup_erase] at hd
        nomatch hd
      · exact ⟨ht, (lookup_erase_ne ht).symm.trans hd⟩
    have hkeys : ∀ n r, (d0.indices.keys.foldl (fun m n => m.erase n) c.indexDhts).lookup n =
        some r → c.indexDhts.lookup n = some r := by
      intro n r hr
      rw [lookup_foldl_erase] at hr
      split at hr
      · nomatch hr
      · exact hr
    -- the rings of the other tables are not under the erased names
    have hkeep : ∀ t d, t ≠ table → c.tables.lookup t = some d → ∀ n ∈ d.indices,
        (d0.indices.keys.foldl (fun m n => m.erase n) c.indexDhts).lookup n =
          c.indexDhts.lookup n := by
      intro t d ht hd n hn
      rw [lookup_foldl_erase, if_neg fun hmem => ?_]
      exact h.apart t d table d0 ht hd hlook n hn (mem_keys.2 hmem)
    refine ⟨⟨?_, ?_, ?_, ?_⟩, ?_⟩
    · intro t d t' d' hne hd hd'
      exact h.apart t d t' d' hne (htables t d hd).2 (htables t' d' hd').2
    · intro t d hd n hn
      obtain ⟨ht, hd⟩ := htables t d hd
      obtain ⟨r, hr⟩ := h.ring t d hd n hn
      exact ⟨r, (hkeep t d ht hd n hn).trans hr⟩
    · intro n r hr
      exact h.below n r (hkeys n r hr)
    · intro n n' r hr hr'
      exact h.inj n n' r (hkeys n r hr) (hkeys n' r hr')
    · intro t ht d hd
      refine ⟨(lookup_erase_ne ht).trans hd, fun n hn => ?_⟩
      exact congrArg (Option.map c.indexRings) (hkeep t d ht hd n hn)

/-- The table that a step creates or drops. -/
def Act.table : Act → Option String
  | .create table _ _ => some table
  | .drop table => some table
  | .write _ _ => none

theorem Inv.step {c c' : Catalog} {act : Act} (h : Inv c) (hact : NamesApart c act)
    (hstep : c.step act = some c') :
    Inv c' ∧ ∀ table, act.table = some table → ∀ t, t ≠ table → Same c c' t := by
  cases act with cases hstep
  | create table columns indices =>
    obtain ⟨hinv, hsame⟩ := h.createTable table columns indices hact
    refine ⟨hinv, fun table' htable t ht => hsame t ?_⟩
    rwa [some.inj htable]
  | drop table =>
    obtain ⟨hinv, hsame⟩ := h.dropTable table
    refine ⟨hinv, fun table' htable t ht => hsame t ?_⟩
    rwa [some.inj htable]
  | write ring contents =>
    exact ⟨{ h with }, nofun⟩

/-- **The tables are apart.**  After calls of which each creation keeps the names of rings apart,
every index of a live table has a ring, no ring is used by two of the tables, and the next such
call leaves the tables it does not name with the rings and the contents they had. -/
theorem tables_apart {acts : List Act} {c : Catalog}
    (hacts : Lib.Along Catalog.step NamesApart empty acts)
    (hrun : Lib.run Catalog.step empty acts = some c) :
    (∀ t d, c.tables.lookup t = some d → ∀ n ∈ d.indices, ∃ r, c.indexDhts.lookup n = some r) ∧
    (∀ t t' r, t ≠ t' → c.Uses t r → ¬ c.Uses t' r) ∧
    ∀ act c', NamesApart c act → c.step act = some c' →
      ∀ table, act.table = some table → ∀ t, t ≠ table → Same c c' t := by
  have hinv : Inv c := Lib.run_invariant_of_along
    (fun _ _ _ h hact hstep => (Inv.step h hact hstep).1) inv_empty hacts hrun
  refine ⟨hinv.ring, ?_, fun act c' hact hstep => (hinv.step hact hstep).2⟩
  rintro t t' r hne ⟨d, n, hd, hn, hr⟩ ⟨d', n', hd', hn', hr'⟩
  obtain rfl := hinv.inj n n' r hr hr'
  exact hinv.apart t d t' d' hne hd hd' n hn hn'

/-- One entry. -/
def oneEntry : OrdMap GUID IndexEntry :=
  OrdMap.empty.insert 7 ⟨⟨0, 7, false⟩, [⟨1, 5⟩], [], [], 1⟩

/-- The tables of the user event log, of which the first holds an entry. -/
def eventLogTables : List Act :=
  [.create "user_event_log" ∅ [⟨"maintable_logid_only", ["logid"]⟩], .write 0 oneEntry,
    .create "user_event_log_names" ∅ [⟨"nametable_logid_only", ["logid"]⟩,
      ⟨"nametable_name_and_type", ["uid", "principal_type"]⟩]]

/-- Dropping one of the two tables leaves the entry of the other. -/
theorem tables_apart_two : ∃ c, Lib.run Catalog.step empty eventLogTables = some c ∧
    ∀ c', c.step (.drop "user_event_log_names") = some c' → Same c c' "user_event_log" := by
  refine ⟨_, rfl, fun c' hstep => ?_⟩
  have hacts : Lib.Along Catalog.step NamesApart empty eventLogTables := by decide +kernel
  exact (tables_apart hacts rfl).2.2 (.drop "user_event_log_names") c' trivial hstep _ rfl
    "user_event_log" (by decide)

/-- **A ring that two tables use.**  The table `a` has the index `b_c`, and its ring holds an
entry; creating the table `a_b` with the index `c` leaves both with one ring, which is empty. -/
theorem ring_shared : ∃ c c',
    Lib.run Catalog.step empty
      [.create "a" ∅ [⟨"b_c", ["x"]⟩], .write 0 oneEntry] = some c ∧
    c.step (.create "a_b" ∅ [⟨"c", ["y"]⟩]) = some c' ∧
    (∃ r, c'.Uses "a" r ∧ c'.Uses "a_b" r) ∧ ¬ Same c c' "a" := by
  refine ⟨_, _, rfl, rfl, ⟨2, ?_, ?_⟩, fun h => ?_⟩
  · exact ⟨_, "a_b_c", rfl, by decide +kernel, by decide +kernel⟩
  · exact ⟨_, "a_b_c", rfl, by decide +kernel, by decide +kernel⟩
  · have hsame := (h _ rfl).2 "a_b_c" (by decide +kernel)
    exact absurd (congrArg (fun ring => (ring.bind fun r => r.find? 7).isSome) hsame)
      (by decide +kernel)

end Catalog
end NoxClassic.Storage
