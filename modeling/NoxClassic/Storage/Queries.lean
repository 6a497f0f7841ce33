/-
# Queries with a GUID, and rows without a column

A query with a GUID does not ask for the row exactly.  It gets the row whose GUID
comes next if there is none (`other_guid_answered`), the rest of the table after
that, and nobody compares the other columns.

`validate_column_types` looks at the columns a row has, `compute_sguid` at those an
index needs.  A row that is accepted and lacks one of these is dereferenced there
(`missing_column_dereferenced`).
-/

import NoxClassic.Storage.IndexScan

namespace NoxClassic.Storage

open List Option Rings

open Lib (OrdMap)

variable {table : Table}

/-- The rows of the table all answer the query, or they all come before its GUID. -/
def OnlyAnswers (s : Rings) (query : Row) (g : GUID) : Prop :=
  (∀ k e, s.content.find? k = some e → k < g) ∨ ∀ k e, s.content.find? k = some e →
    k = g ∧ ∀ c v, c ≠ "GUID" → query.lookup c = some v → e.row.lookup c = some v

/-- `get` with a GUID looks for the first row that does not come before it. -/
theorem Rings.awaitReply_lowerBound {s : Rings} (hq : s.queue = []) (g : GUID) (cb : ℕ) :
    (s.post [.contentGet .empty ⟨anyVersion, g, false⟩ false cb]).awaitReply 3 =
      some (match s.content.lowerBound g with
        | none => (⟨.noMoreRows, ""⟩, .empty, ∅, s)
        | some (_, e) => (.ok, { Context.empty with
            initialRow := e.id.toReference, currentRow := e.id.toReference }, e.row, s)) := by
  rw [post_nil_queue hq, awaitReply]
  simp only [with_queue_nil hq, handle, contentGet, Bool.false_eq_true, if_false]
  cases s.content.lowerBound g with
  | none => exact awaitReply_getReply hq 1 cb ..
  | some p =>
    simp only [map_some, ContentEntry.get, Bool.and_false, Bool.false_eq_true, if_false]
    exact awaitReply_getReply hq 1 cb ..

/-- After the only row the scan ends. -/
theorem Rings.getNext_only {s : Rings} {ctxt : Context} (hindex : ctxt.index = "")
    (honly : ∀ k e, s.content.find? k = some e → k = ctxt.currentRow.guid)
    (hinitial : ctxt.initialRow = ctxt.currentRow) (cb : ℕ) :
    s.getNext table ctxt cb = s.post [.getReply cb ⟨.noMoreRows, "End of rows."⟩ ctxt ∅] := by
  have hupper : s.content.upperBound ctxt.currentRow.guid = none := by
    rw [eq_none_iff_forall_ne_some]
    rintro ⟨k, e⟩ hu
    obtain ⟨hfind, hlt, -⟩ := OrdMap.first_eq_some hu
    exact (of_decide_eq_true hlt).ne' (honly k e hfind)
  rw [getNext, if_neg (not_not.2 hindex)]
  simp only [contentGetNext, hupper, hinitial, none_or]
  cases hl : s.content.lowerBound 0 with
  | none => rfl
  | some p => exact if_pos (honly _ _ (OrdMap.first_eq_some hl).1)

/-- With another row in the table, the scan goes on to one. -/
theorem Rings.getNext_other {s : Rings} {ctxt : Context} (hindex : ctxt.index = "") {l : GUID}
    {f : ContentEntry} (hl : s.content.find? l = some f) (hne : l ≠ ctxt.currentRow.guid)
    (hinitial : ctxt.initialRow = ctxt.currentRow) (cb : ℕ) :
    ∃ k e, s.content.find? k = some e ∧ k ≠ ctxt.currentRow.guid ∧
      s.getNext table ctxt cb = s.post [e.getNext ctxt cb] := by
  rw [getNext, if_neg (not_not.2 hindex)]
  simp only [contentGetNext, hinitial, lt_irrefl, false_and, if_false]
  cases hu : s.content.upperBound ctxt.currentRow.guid with
  | some p =>
    obtain ⟨hfind, hlt, -⟩ := OrdMap.first_eq_some hu
    have hne := (of_decide_eq_true hlt).ne'
    exact ⟨p.1, p.2, hfind, hne, by rw [some_or]; exact if_neg hne⟩
  | none =>
    have hlt : l < ctxt.currentRow.guid :=
      lt_of_le_of_ne (not_lt.1 (of_decide_eq_false (OrdMap.first_eq_none hu hl))) hne
    cases h0 : s.content.lowerBound 0 with
    | none => exact absurd (Fin.zero_le l) (of_decide_eq_false (OrdMap.first_eq_none h0 hl))
    | some p =>
      obtain ⟨hfind, -, hleast⟩ := OrdMap.first_eq_some h0
      have hne := ((hleast l f hl (decide_eq_true (Fin.zero_le l))).trans_lt hlt).ne
      exact ⟨p.1, p.2, hfind, hne, by rw [none_or]; exact if_neg hne⟩

/-- **A query with a GUID gets the row with that GUID** and no other one, exactly when the table has
no other row and the row agrees with the query, or all rows come before the GUID. -/
theorem guid_query (digest : List UInt8 → GUID) (table : Table) (as : List Act) (w : World)
    (hrun : Lib.run (World.step digest table) World.initial as = some w) (hq : w.rings.queue = [])
    (query : Row) (cb : ℕ) (g : GUID) (hvalid : table.validateColumnTypes query = none)
    (hguid : query.lookup "GUID" = some (.guid g)) :
    (∃ s n rows last, w.rings.get digest table query cb = some s ∧
      s.iterate table n = some (rows, last) ∧ last.code = .noMoreRows ∧
      (∀ ref row, (ref, row) ∈ rows ↔
        ∃ e, w.rings.content.find? g = some e ∧ e.id.toReference = ref ∧ e.row = row) ∧
      ∀ ref row, (ref, row) ∈ rows → ref.guid = g ∧
        ∀ c v, c ≠ "GUID" → query.lookup c = some v → row.lookup c = some v) ↔
      OnlyAnswers w.rings query g := by
  have hkeyed : Keyed w.rings.core :=
    (Lib.run_invariant (fun _ _ _ h hs => ContextInv.step h hs) ContextInv.initial hrun).keyed
  have hne : query.entries.isEmpty = false := by
    rw [isEmpty_eq_false_iff]
    intro h
    rw [AList.lookup, h] at hguid
    cases hguid
  have hget : w.rings.get digest table query cb =
      some (w.rings.post [.contentGet .empty ⟨anyVersion, g, false⟩ false cb]) := by
    simp only [Rings.get, hvalid, hne, hguid]
    rfl
  have hfirst := awaitReply_lowerBound hq g cb
  cases hl : w.rings.content.lowerBound g with
  | none =>
    have hlt (k : GUID) (e : ContentEntry) (he : w.rings.content.find? k = some e) : k < g :=
      not_le.1 (of_decide_eq_false (OrdMap.first_eq_none hl he))
    rw [hl] at hfirst
    refine ⟨fun _ => .inl hlt, fun _ => ⟨_, 1, [], ⟨.noMoreRows, ""⟩, hget,
      by rw [Rings.iterate, hfirst]; rfl, rfl, fun ref row => ⟨fun h => absurd h not_mem_nil, ?_⟩,
      fun _ _ h => absurd h not_mem_nil⟩⟩
    rintro ⟨e, he, -⟩
    exact absurd (hlt g e he) (lt_irrefl g)
  | some p =>
    obtain ⟨k, e⟩ := p
    obtain ⟨hfind, hge, -⟩ := OrdMap.first_eq_some hl
    have hid : e.id.guid = k := hkeyed k e.core (core_of_find? hfind)
    rw [hl] at hfirst
    refine ⟨?_, fun honly => ?_⟩
    · -- the first answer is the row `k`, and if there is another row the second one is such a row
      rintro ⟨s, n, rows, last, hs, hiterate, -, -, hall⟩
      obtain rfl := some.inj (hget.symm.trans hs)
      obtain _ | n := n
      · cases hiterate
      rw [Rings.iterate, hfirst] at hiterate
      obtain ⟨r, hr, hrows⟩ := map_eq_some_iff.1 hiterate
      obtain rfl := (Prod.mk.inj hrows).1.symm
      obtain ⟨hk, hagree⟩ := hall _ _ mem_cons_self
      obtain rfl : k = g := hid.symm.trans hk
      refine .inr fun l f hf => ?_
      by_cases hne : l = k
      · obtain rfl : f = e := some.inj ((hne ▸ hf).symm.trans hfind)
        exact ⟨hne, hagree⟩
      obtain ⟨k', e', hfind', hne', hnext⟩ := @getNext_other table _
        { Context.empty with initialRow := e.id.toReference, currentRow := e.id.toReference }
        rfl _ _ hf (fun h => hne (h.trans hid)) rfl 0
      obtain _ | n := n
      · cases hr
      rw [Rings.iterate, hnext, ContentEntry.getNext, awaitReply_getReply hq] at hr
      obtain ⟨r', -, rfl⟩ := map_eq_some_iff.1 hr
      have hk' := (hall _ _ (mem_cons_of_mem _ mem_cons_self)).1
      exact absurd (((hkeyed k' e'.core (core_of_find? hfind')).symm.trans hk').trans hid.symm) hne'
    rcases honly with hlt | honly
    · exact absurd (hlt k e hfind) (of_decide_eq_true hge).not_gt
    obtain ⟨rfl, hagree⟩ := honly k e hfind
    have hend : w.rings.getNext table { Context.empty with
        initialRow := e.id.toReference, currentRow := e.id.toReference } 0 = _ :=
      getNext_only rfl (fun l f hf => (honly l f hf).1.trans hid.symm) rfl 0
    refine ⟨_, 2, [(e.id.toReference, e.row)], ⟨.noMoreRows, "End of rows."⟩, hget, ?_, rfl,
      fun ref row => ?_, fun ref row hmem => ?_⟩
    · rw [Rings.iterate, hfirst]
      simp only [if_pos (show Result.ok.code = .success from rfl), hend]
      rw [Rings.iterate, awaitReply_getReply hq]
      rfl
    · rw [mem_singleton, hfind]
      simp [eq_comm]
    · obtain ⟨rfl, rfl⟩ := Prod.mk.inj (mem_singleton.1 hmem)
      exact ⟨hid, hagree⟩

/-- A row is stored. -/
def storeOne : List Act := .put (namedRow "a") 0 0 :: List.replicate 3 .deliver

/-- The hypotheses of `guid_query` are satisfiable. -/
theorem guid_query_seven :
    ∃ w, Lib.run (World.step sha1OfLetters nameTable) World.initial storeOne = some w ∧
      OnlyAnswers w.rings (namedRow "a") 7 ∧
      ∃ s n rows last, w.rings.get sha1OfLetters nameTable (namedRow "a") 0 = some s ∧
        s.iterate nameTable n = some (rows, last) ∧ last.code = .noMoreRows ∧
        (∀ ref row, (ref, row) ∈ rows ↔
          ∃ e, w.rings.content.find? 7 = some e ∧ e.id.toReference = ref ∧ e.row = row) ∧
        ∀ ref row, (ref, row) ∈ rows → ref.guid = 7 ∧
          ∀ c v, c ≠ "GUID" → (namedRow "a").lookup c = some v → row.lookup c = some v := by
  obtain ⟨w, hw, he⟩ := map_eq_some_iff.1
    (by decide +kernel : (Lib.run (World.step sha1OfLetters nameTable) World.initial
        storeOne).map (fun w => (w.rings.queue.isEmpty,
          w.rings.content.entries.map fun e => (e.1, e.2.row.entries))) =
        some (true, [(7, (namedRow "a").entries)]))
  obtain ⟨hq, hrows⟩ := Prod.mk.inj he
  have honly : OnlyAnswers w.rings (namedRow "a") 7 := by
    refine .inr fun k e hfind => ?_
    have hmem : (k, e.row.entries) ∈ [((7 : GUID), (namedRow "a").entries)] :=
      hrows ▸ mem_map.2 ⟨(k, e), OrdMap.find?_eq_some_iff.1 hfind, rfl⟩
    obtain ⟨rfl, hrow⟩ := Prod.mk.inj (mem_singleton.1 hmem)
    rw [AList.ext hrow]
    exact ⟨rfl, fun c v _ hv => hv⟩
  exact ⟨w, hw, honly, (guid_query sha1OfLetters nameTable storeOne w hw (isEmpty_iff.1 hq)
    (namedRow "a") 0 7 (by decide +kernel) (by decide +kernel)).2 honly⟩

/-- **Another row is the answer.**  The table has the row 7 alone, the query asks for the row 5. -/
theorem other_guid_answered :
    (do
      let w ← Lib.run (World.step sha1OfLetters nameTable) World.initial storeOne
      let s ← w.rings.get sha1OfLetters nameTable ((∅ : Row).insert "GUID" (.guid 5)) 0
      (s.iterate nameTable 2).map fun r => r.1.map fun p => p.1.guid) = some [7] := by
  decide +kernel

/-! ### Rows without a column of an index -/

/-- The columns that the indices of the table are on. -/
def Table.indexedColumns (table : Table) : List String := table.indices.entries.flatMap (·.2)

theorem Table.isSome_sguids (digest : List UInt8 → GUID) {row : Row} :
    (table.sguids digest row).isSome = true ↔ ∀ c ∈ table.indexedColumns, c ∈ row := by
  unfold sguids indexedColumns
  generalize (OrdMap.empty : OrdMap String GUID) = m
  induction table.indices.entries generalizing m with
  | nil => simp
  | cons i is ih =>
    have hsguid := @isSome_computeSguid i.2 digest row
    rw [foldlM_cons, flatMap_cons, forall_mem_append, ← hsguid]
    cases computeSguid digest i.2 row with
    | none => simp
    | some sguid => simpa using ih _

/-- **A row that is accepted is indexed** by columns it has, exactly when it has every column that
an index is on. -/
theorem accepted_row_indexed (digest : List UInt8 → GUID) (table : Table) (row : Row)
    (hvalid : table.validateColumnTypes row = none) (s : Rings) (ctxt : Context) (random : GUID)
    (cb : ℕ) :
    ((∃ sguids, table.Indexes digest row sguids ∧
        s.put digest table row random cb = some (s.contentPut sguids row random cb)) ∧
      ∃ r, s.modify digest table ctxt row cb = some r) ↔ ∀ c ∈ table.indexedColumns, c ∈ row := by
  rw [← Table.isSome_sguids digest, put, Rings.modify, hvalid]
  constructor
  · rintro ⟨-, r, hr⟩
    obtain ⟨sguids, hsguids, -⟩ := map_eq_some_iff.1 hr
    exact isSome_iff_exists.2 ⟨sguids, hsguids⟩
  · intro h
    obtain ⟨sguids, hsguids⟩ := isSome_iff_exists.1 h
    rw [hsguids]
    exact ⟨⟨sguids, Table.indexes_of_sguids hsguids, rfl⟩, _, rfl⟩

theorem accepted_row_indexed_name :
    nameTable.validateColumnTypes (namedRow "a") = none ∧
      (∃ sguids, nameTable.Indexes sha1OfLetters (namedRow "a") sguids ∧
        initial.put sha1OfLetters nameTable (namedRow "a") 0 0 =
          some (initial.contentPut sguids (namedRow "a") 0 0)) ∧
      ∃ r, initial.modify sha1OfLetters nameTable .empty (namedRow "a") 0 = some r :=
  ⟨by decide +kernel, (accepted_row_indexed sha1OfLetters nameTable (namedRow "a")
    (by decide +kernel) initial .empty 0 0).2 (by decide +kernel)⟩

/-- **The empty row is accepted, and its name is dereferenced.** -/
theorem missing_column_dereferenced : nameTable.validateColumnTypes ∅ = none ∧
    (initial.put sha1OfLetters nameTable ∅ 0 0).isNone = true ∧
    (initial.modify sha1OfLetters nameTable .empty ∅ 0).isNone = true := by
  decide +kernel

end NoxClassic.Storage
