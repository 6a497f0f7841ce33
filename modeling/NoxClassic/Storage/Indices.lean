/-
# The indices follow the rows

A change of a row posts messages to the indices, and while they are in the queue
the indices lag behind.  What they will hold once the queue has been delivered
(`settled`) is right at every moment: under each secondary GUID the references of
exactly the rows that have it.

This is so while GUIDs are not used again and no row is stored without columns:
then a version that a queued message still removes is older than the row
(`removals`), and no removal is refused and carried out all the same.
-/

import NoxClassic.Storage.Contexts

namespace NoxClassic.Storage

open Function List Option ContentEntry

open Lib (OrdMap)

variable {digest : List UInt8 → GUID} {table : Table}

/-! ### Secondary GUIDs -/

/-- The secondary GUIDs of a row: one for each index of the table. -/
structure Table.Indexes (digest : List UInt8 → GUID) (table : Table) (row : Row)
    (sguids : OrdMap String GUID) : Prop where
  none : ∀ i, table.indices.lookup i = none → sguids.find? i = none
  some : ∀ i columns, table.indices.lookup i = some columns →
    ∃ sguid, computeSguid digest columns row = some sguid ∧ sguids.find? i = some sguid

variable {row : Row}

theorem Table.indexes_foldlM {es : List (Sigma fun _ : String => List String)}
    (hnodup : es.NodupKeys) {m m' : OrdMap String GUID}
    (h : es.foldlM (fun m i => (computeSguid digest i.2 row).map fun sguid =>
      m.insert i.1 sguid) m = some m') (i : String) :
    (es.dlookup i = none → m'.find? i = m.find? i) ∧
    ∀ columns, es.dlookup i = some columns →
      ∃ sguid, computeSguid digest columns row = some sguid ∧ m'.find? i = some sguid := by
  induction es generalizing m with
  | nil =>
    cases h
    exact ⟨fun _ => rfl, nofun⟩
  | cons e es ih =>
    obtain ⟨j, columns⟩ := e
    obtain ⟨hj, hnodup⟩ := nodupKeys_cons.1 hnodup
    obtain ⟨m1, hm1, h⟩ := bind_eq_some_iff.1 h
    obtain ⟨sguid, hsguid, rfl⟩ := map_eq_some_iff.1 hm1
    obtain ⟨hnone, hsome⟩ := ih hnodup h
    by_cases hi : i = j
    · subst hi
      rw [dlookup_cons_eq]
      refine ⟨nofun, fun columns' hc => ?_⟩
      cases hc
      rw [hnone (dlookup_eq_none.2 hj), OrdMap.find?_insert, if_pos rfl]
      exact ⟨sguid, hsguid, rfl⟩
    · rw [dlookup_cons_ne _ _ hi]
      refine ⟨fun hc => ?_, hsome⟩
      rw [hnone hc, OrdMap.find?_insert, if_neg hi]

variable {sguids : OrdMap String GUID}

theorem Table.indexes_of_sguids
    (h : table.sguids digest row = some sguids) : table.Indexes digest row sguids where
  none i hi := (Table.indexes_foldlM table.indices.nodupKeys h i).1 hi
  some i columns hi := (Table.indexes_foldlM table.indices.nodupKeys h i).2 columns hi

variable {row' : Row} {random g : GUID} {o : Option Core} {e : ContentEntry} {m : Msg}
    {updates : List Msg} {a : Act} {w : World}

variable {sguid : GUID}

/-- The indices of a table are the same for all rows. -/
theorem Table.Indexes.find?_isSome {sguids' : OrdMap String GUID}
    (h : table.Indexes digest row sguids) (h' : table.Indexes digest row' sguids') {i : String}
    (hi : sguids.find? i = Option.some sguid) : ∃ sguid', sguids'.find? i = Option.some sguid' := by
  cases hc : table.indices.lookup i with
  | none => nomatch hi.symm.trans (h.none i hc)
  | some columns =>
    obtain ⟨sguid', -, hs⟩ := h'.some i columns hc
    exact ⟨sguid', hs⟩

/-- What a row gives for the columns of an index does not change when it gets more columns. -/
theorem computeSguid_mono (hrow : ∀ c v, row.lookup c = some v →
    row'.lookup c = some v) {columns : List String}
    (h : computeSguid digest columns row = some sguid) :
    computeSguid digest columns row' = some sguid := by
  have hmapM : ∀ (cs : List (String × Unit)) vs, cs.mapM (fun c => row.lookup c.1) = some vs →
      cs.mapM (fun c => row'.lookup c.1) = some vs := by
    intro cs
    induction cs with
    | nil => exact fun _ h => h
    | cons c cs ih =>
      intro vs hvs
      rw [mapM_cons] at hvs ⊢
      obtain ⟨v, hv, hvs⟩ := bind_eq_some_iff.1 hvs
      obtain ⟨vs', hvs', hvs⟩ := bind_eq_some_iff.1 hvs
      exact bind_eq_some_iff.2 ⟨v, hrow _ _ hv, bind_eq_some_iff.2 ⟨vs', ih vs' hvs', hvs⟩⟩
  obtain ⟨vs, hvs, rfl⟩ := map_eq_some_iff.1 h
  exact map_eq_some_iff.2 ⟨vs, hmapM _ _ hvs, rfl⟩

theorem lookup_withGuid {c : String} {v : ColumnValue}
    (h : row.lookup c = some v) : (withGuid row random).lookup c = some v := by
  unfold withGuid
  split
  · rename_i hnone
    have hc : c ≠ "GUID" := by
      rintro rfl
      nomatch h.symm.trans hnone
    rw [AList.lookup_insert_ne hc, h]
  · exact h

theorem Table.Indexes.withGuid (h : table.Indexes digest row sguids) :
    table.Indexes digest (Storage.withGuid row random) sguids where
  none := h.none
  some i columns hi := by
    obtain ⟨sguid, hs, hf⟩ := h.some i columns hi
    exact ⟨sguid, computeSguid_mono (fun _ _ => lookup_withGuid) hs, hf⟩

/-! ### References -/

/-- The references under `sguid` once the message `o` and the queue have been delivered. -/
def Rings.settled (s : Rings) (o : Option Msg) (i : String) (sguid : GUID) : List RowReference :=
  (o.toList ++ s.queue).foldl (Msg.onRefs i sguid) (s.refs i sguid)

/-- The references are, without duplicates, those of the rows that have the secondary GUID. -/
structure Exact (core : GUID → Option Core) (i : String) (sguid : GUID)
    (refs : List RowReference) : Prop where
  nodup : refs.Nodup
  mem : ∀ ref, ref ∈ refs ↔
    ∃ c, core ref.guid = some c ∧ c.id = ref ∧ c.sguids.find? i = some sguid

/-- The references under `sguid` without that of the row `o`, if it has this secondary GUID. -/
def unlist (i : String) (sguid : GUID) (o : Option Core) (refs : List RowReference) :
    List RowReference :=
  o.elim refs fun c => if c.sguids.find? i = some sguid then refs.erase c.id else refs

/-- The references under `sguid` with that of the row `o`, if it has this secondary GUID. -/
def enlist (i : String) (sguid : GUID) (o : Option Core) (refs : List RowReference) :
    List RowReference :=
  o.elim refs fun c => if c.sguids.find? i = some sguid then refs ++ [c.id] else refs

variable {core : GUID → Option Core} {i : String} {sguid : GUID} {refs : List RowReference}

section

variable (h : Exact core i sguid refs)
include h

/-- Without the row at `g` the references are those of the other rows. -/
theorem Exact.mem_unlist
    (hkeyed : ∀ g c, core g = some c → c.id.guid = g) (g : GUID) (ref : RowReference) :
    ref ∈ unlist i sguid (core g) refs ↔ ref ∈ refs ∧ ref.guid ≠ g := by
  -- a reference of the list with the GUID `g` is that of the row there
  have hrow : ∀ r ∈ refs, r.guid = g →
      ∃ c, core g = some c ∧ c.id = r ∧ c.sguids.find? i = some sguid := by
    rintro r hr rfl
    exact (h.mem r).1 hr
  unfold unlist
  cases hc : core g with
  | none =>
    refine ⟨fun hr => ⟨hr, fun hg => ?_⟩, And.left⟩
    obtain ⟨c, hc', -⟩ := hrow ref hr hg
    nomatch hc'.symm.trans hc
  | some c =>
    rw [elim_some]
    split_ifs with hlisted
    · rw [h.nodup.mem_erase_iff]
      constructor
      · rintro ⟨hne, hr⟩
        refine ⟨hr, fun hg => hne ?_⟩
        obtain ⟨c', hc', hid, -⟩ := hrow ref hr hg
        rw [← hid, some.inj (hc.symm.trans hc')]
      · rintro ⟨hr, hg⟩
        refine ⟨?_, hr⟩
        rintro rfl
        exact hg (hkeyed g c hc)
    · refine ⟨fun hr => ⟨hr, fun hg => hlisted ?_⟩, And.left⟩
      obtain ⟨c', hc', -, hs⟩ := hrow ref hr hg
      rw [some.inj (hc.symm.trans hc'), hs]

theorem Exact.nodup_unlist (o : Option Core) :
    (unlist i sguid o refs).Nodup := by
  unfold unlist
  cases o with
  | none => exact h.nodup
  | some c =>
    rw [elim_some]
    split
    · exact h.nodup.erase _
    · exact h.nodup

/-- **A row is replaced**: its reference is taken out and the new one put in. -/
theorem Exact.change (hkeyed : ∀ g c, core g = some c → c.id.guid = g)
    (ho : ∀ c, o = some c → c.id.guid = g) :
    Exact (update core g o) i sguid (enlist i sguid o (unlist i sguid (core g) refs)) := by
  have hmem : ∀ ref, (ref ∈ unlist i sguid (core g) refs ∨
      ∃ c, o = some c ∧ c.id = ref ∧ c.sguids.find? i = some sguid) ↔
      ∃ c, update core g o ref.guid = some c ∧ c.id = ref ∧ c.sguids.find? i = some sguid := by
    intro ref
    rw [h.mem_unlist hkeyed g ref, h.mem ref, update_apply]
    constructor
    · rintro (⟨hc, hg⟩ | ⟨c, hc, hid, hs⟩)
      · rw [if_neg hg]
        exact hc
      · rw [if_pos (hid ▸ ho c hc)]
        exact ⟨c, hc, hid, hs⟩
    · rintro ⟨c, hc, hid, hs⟩
      split_ifs at hc with hg
      · exact .inr ⟨c, hc, hid, hs⟩
      · exact .inl ⟨⟨c, hc, hid, hs⟩, hg⟩
  unfold enlist
  cases o with
  | none => exact ⟨h.nodup_unlist _, fun ref => by simpa using hmem ref⟩
  | some c =>
    rw [elim_some]
    split_ifs with hs
    · refine ⟨List.Nodup.append (h.nodup_unlist _) (nodup_singleton _) ?_, fun ref => ?_⟩
      · refine disjoint_singleton.2 fun hc => ?_
        exact ((h.mem_unlist hkeyed g c.id).1 hc).2 (ho c rfl)
      · rw [← hmem ref, mem_append, mem_singleton]
        refine or_congr_right ⟨fun hr => ⟨c, rfl, hr.symm, hs⟩, ?_⟩
        rintro ⟨c', hc', hid, -⟩
        rw [← hid, some.inj hc']
    · refine ⟨h.nodup_unlist _, fun ref => ?_⟩
      rw [← hmem ref]
      refine ⟨.inl, ?_⟩
      rintro (hr | ⟨c', hc', -, hs'⟩)
      · exact hr
      · rw [some.inj hc'] at hs
        exact absurd hs' hs

end

/-! ### What the messages of a change do -/

theorem foldl_indexPut (sguids : OrdMap String GUID) (id : RowReference) (row row' : Row)
    (reason : TriggerReason) :
    (sguids.entries.map fun e => Msg.indexPut e.1 e.2 id row' reason).foldl (Msg.onRefs i sguid)
        refs = enlist i sguid (some ⟨id, row, sguids⟩) refs := by
  rw [map_eq_flatMap, sguids.foldl_flatMap i (fun j g => [.indexPut j g id row' reason])
    (Msg.onRefs i sguid) fun j g hj m hm a => ?_]
  · cases hs : sguids.find? i with
    | none => simp [enlist, hs]
    | some sguid' => simp [enlist, hs, Msg.onRefs]
  · obtain rfl := mem_singleton.1 hm
    exact if_neg fun h => hj h.1

theorem ContentEntry.foldl_indexRemovals (e : ContentEntry) :
    e.indexRemovals.foldl (Msg.onRefs i sguid) refs = unlist i sguid (some e.core) refs := by
  unfold indexRemovals
  rw [map_eq_flatMap, e.sguids.foldl_flatMap i
    (fun j g => [.indexRemove j g e.id e.row e.id.next .remove]) (Msg.onRefs i sguid)
    fun j g hj m hm a => ?_]
  · cases hs : e.sguids.find? i with
    | none => simp [unlist, core, hs]
    | some sguid' => simp [unlist, core, hs, Msg.onRefs]
  · obtain rfl := mem_singleton.1 hm
    exact if_neg fun h => hj h.1

/-- The updates for an index are about no other. -/
theorem ContentEntry.onRefs_indexUpdates {j : String}
    (hj : j ≠ i) (hm : m ∈ e.indexUpdates row j g) : m.onRefs i sguid refs = refs := by
  rcases mem_indexUpdates hm with rfl | ⟨prev, rfl⟩ | rfl <;> exact if_neg fun h => hj h.1

/-- The updates for one index replace the reference, wherever the row now belongs. -/
theorem ContentEntry.foldl_indexUpdates_self {prev : GUID} (hprev : e.sguids.find? i = some prev) :
    (e.indexUpdates row i g).foldl (Msg.onRefs i sguid) refs =
      if g = sguid then (if prev = sguid then refs.erase e.id else refs) ++ [e.id.next]
      else if prev = sguid then refs.erase e.id else refs := by
  unfold indexUpdates
  simp only [hprev, getD_some]
  by_cases hne : prev = g
  · subst hne
    by_cases hs : prev = sguid <;> simp [Msg.onRefs, hs]
  · rw [if_pos hne]
    split <;> by_cases hs : g = sguid <;> by_cases hp : prev = sguid <;>
      simp_all [Msg.onRefs]

theorem ContentEntry.foldl_indexUpdates (hold : table.Indexes digest row' e.sguids)
    (hnew : table.Indexes digest row sguids) :
    (sguids.entries.flatMap fun x => e.indexUpdates row x.1 x.2).foldl (Msg.onRefs i sguid)
        refs =
      enlist i sguid (some ⟨e.id.next, row, sguids⟩) (unlist i sguid (some e.core) refs) := by
  rw [sguids.foldl_flatMap i (e.indexUpdates row) (Msg.onRefs i sguid)
    fun j g hj m hm a => onRefs_indexUpdates hj hm]
  cases hs : sguids.find? i with
  | none =>
    have hprev : e.sguids.find? i = none := by
      cases hp : e.sguids.find? i with
      | none => rfl
      | some prev =>
        obtain ⟨g, hg⟩ := hold.find?_isSome hnew hp
        nomatch hg.symm.trans hs
    simp [enlist, unlist, core, hs, hprev]
  | some g =>
    obtain ⟨prev, hprev⟩ := hnew.find?_isSome hold hs
    rw [elim_some, foldl_indexUpdates_self hprev]
    simp [enlist, unlist, core, hs, hprev]

/-- Messages that are inert do nothing to what the indices will hold. -/
theorem foldl_onRefs_of_inert {ms : List Msg} (h : ∀ m ∈ ms, ∀ j g l, m.onRefs j g l = l) :
    ms.foldl (Msg.onRefs i sguid) refs = refs := by
  induction ms with
  | nil => rfl
  | cons m ms ih =>
    rw [foldl_cons, h m mem_cons_self]
    exact ih fun m' hm' => h m' (mem_cons_of_mem m hm')

variable {s s' : Rings}

theorem Quiet.settled (h : Quiet s s') : s'.settled none i sguid = s.settled none i sguid := by
  obtain ⟨ms, hq, hms⟩ := h.queue
  unfold Rings.settled
  rw [hq, h.refs, toList_none, nil_append, nil_append, foldl_append,
    foldl_onRefs_of_inert fun m hm => (hms m hm).onRefs]

theorem Changed.settled {core : GUID → Option Core} (h : Changed s s' core updates) :
    s'.settled none i sguid = updates.foldl (Msg.onRefs i sguid) (s.settled none i sguid) := by
  obtain ⟨-, hrefs, ms1, ms2, hq, hms⟩ := h
  unfold Rings.settled
  rw [hq, hrefs, toList_none, nil_append, nil_append, foldl_append, foldl_append, foldl_append,
    foldl_onRefs_of_inert fun m hm => (hms m (mem_append_left _ hm)).onRefs,
    foldl_onRefs_of_inert fun m hm => (hms m (mem_append_right _ hm)).onRefs]

theorem Runs.settled (h : Runs s m s') : s'.settled none i sguid = s.settled (some m) i sguid := by
  obtain ⟨-, hrefs, ms, hq, hms⟩ := h
  unfold Rings.settled
  rw [hq, hrefs, toList_none, nil_append, foldl_append,
    foldl_onRefs_of_inert fun m' hm' => (hms m' hm').1]
  rfl

/-! ### Runs -/

/-- The request does not use a GUID again, and stores no row without columns. -/
def fresh (w : World) : Act → Bool
  | .put row random _ => (w.rings.core (putGuid row random)).isSome ||
      w.ops.all fun op => !op.inserts (putGuid row random)
  | .modify ctxt row _ => (w.rings.core ctxt.currentRow.guid).all fun c =>
    !c.id.matches ctxt.currentRow || !row.entries.isEmpty
  | _ => true

/-- The message `o` and the queue are what the indices lag behind. -/
structure Lagging (digest : List UInt8 → GUID) (table : Table) (s : Rings) (ops : List Op)
    (o : Option Msg) : Prop where
  used : ∀ g c, s.core g = some c → ∃ op ∈ ops, op.inserts g = true
  removals : ∀ m ∈ o.toList ++ s.queue, ∀ ref, m.removes = some ref →
    (∃ op ∈ ops, op.inserts ref.guid = true) ∧
      ∀ c, s.core ref.guid = some c → ref.version < c.id.version
  indexes : ∀ g c, s.core g = some c → table.Indexes digest c.row c.sguids
  refs : ∀ i sguid, Exact s.core i sguid (s.settled o i sguid)

theorem Lagging.initial : Lagging digest table Rings.initial [] none where
  used g c hc := nomatch hc
  removals m hm := nomatch hm
  indexes g c hc := nomatch hc
  refs i sguid := by
    refine ⟨nodup_nil, fun ref => ⟨nofun, ?_⟩⟩
    rintro ⟨c, hc, -⟩
    nomatch hc

variable {ops : List Op}

/-- Taking the first message off the queue. -/
theorem Lagging.pop {queue : List Msg} (hq : s.queue = m :: queue)
    (h : Lagging digest table s ops none) :
    Lagging digest table { s with queue } ops (some m) where
  used := h.used
  removals := by
    have := h.removals
    rw [hq] at this
    exact this
  indexes := h.indexes
  refs i sguid := by
    have := h.refs i sguid
    unfold Rings.settled at this ⊢
    rw [hq] at this
    exact this

/-- A message that is about no index makes no difference. -/
theorem Lagging.drop (h : Lagging digest table s ops (some m))
    (hm : ∀ i sguid refs, m.onRefs i sguid refs = refs) : Lagging digest table s ops none where
  used := h.used
  removals m' hm' := h.removals m' (mem_cons_of_mem m hm')
  indexes := h.indexes
  refs i sguid := by
    have := h.refs i sguid
    unfold Rings.settled at this ⊢
    rw [toList_some, singleton_append, foldl_cons, hm] at this
    exact this

theorem Lagging.quiet (h : Lagging digest table s ops none) (hq : Quiet s s') :
    Lagging digest table s' ops none where
  used := hq.core ▸ h.used
  removals m hm ref hr := by
    obtain ⟨ms, hqueue, hms⟩ := hq.queue
    rw [hq.core]
    rw [toList_none, nil_append, hqueue] at hm
    rcases mem_append.1 hm with hm | hm
    · exact h.removals m hm ref hr
    · nomatch hr.symm.trans (hms m hm).removes
  indexes := hq.core ▸ h.indexes
  refs i sguid := by
    rw [hq.settled, hq.core]
    exact h.refs i sguid

theorem Lagging.runs (h : Lagging digest table s ops (some m)) (hruns : Runs s m s') :
    Lagging digest table s' ops none where
  used := hruns.core ▸ h.used
  removals m' hm' ref hr := by
    obtain ⟨ms, hqueue, hms⟩ := hruns.queue
    rw [hruns.core]
    rw [toList_none, nil_append, hqueue] at hm'
    rcases mem_append.1 hm' with hm' | hm'
    · exact h.removals m' (mem_append_right _ hm') ref hr
    · exact h.removals m mem_cons_self ref ((hms m' hm').2.1 ref hr)
  indexes := hruns.core ▸ h.indexes
  refs i sguid := by
    rw [hruns.settled, hruns.core]
    exact h.refs i sguid

/-- A change of one row by the operation `op`. -/
theorem Lagging.changed (h : Lagging digest table s ops none)
    (hkeyed : ∀ g c, s.core g = some c → c.id.guid = g) {op : Op}
    (hch : Changed s s' (update s.core g o) updates)
    (ho : ∀ c, o = some c → c.id.guid = g ∧ (∃ op' ∈ op :: ops, op'.inserts g = true) ∧
      table.Indexes digest c.row c.sguids)
    (hold : ∀ c, o = some c → ∀ m ∈ s.queue, ∀ ref, m.removes = some ref → ref.guid = g →
      ref.version < c.id.version)
    (hnew : ∀ m ∈ updates, ∀ ref, m.removes = some ref → ref.guid = g ∧
      (∃ op' ∈ ops, op'.inserts g = true) ∧ ∀ c, o = some c → ref.version < c.id.version)
    (hrefs : ∀ i sguid refs, updates.foldl (Msg.onRefs i sguid) refs =
      enlist i sguid o (unlist i sguid (s.core g) refs)) :
    Lagging digest table s' (op :: ops) none := by
  have hmono : ∀ l, (∃ op' ∈ ops, op'.inserts l = true) → ∃ op' ∈ op :: ops, op'.inserts l = true :=
    fun l ⟨op', hop, hl⟩ => ⟨op', mem_cons_of_mem op hop, hl⟩
  refine ⟨fun l c hc => ?_, fun m hm ref hr => ?_, fun l c hc => ?_, fun i sguid => ?_⟩
  · rw [hch.core, update_apply] at hc
    split_ifs at hc with hl
    · exact hl ▸ (ho c hc).2.1
    · exact hmono l (h.used l c hc)
  · obtain ⟨hcore, -, ms1, ms2, hqueue, hms⟩ := hch
    have hinert : m ∈ ms1 ++ ms2 → False := fun hm =>
      nomatch hr.symm.trans (hms m hm).removes
    rw [hcore, update_apply]
    simp only [toList_none, nil_append, hqueue, mem_append] at hm
    rcases hm with hm | (hm | hm) | hm
    · obtain ⟨hused, hlt⟩ := h.removals m hm ref hr
      refine ⟨hmono _ hused, fun c hc => ?_⟩
      split_ifs at hc with hg
      · exact hold c hc m hm ref hr hg
      · exact hlt c hc
    · exact absurd (mem_append_left _ hm) hinert
    · obtain ⟨rfl, hused, hlt⟩ := hnew m hm ref hr
      rw [if_pos rfl]
      exact ⟨hmono _ hused, hlt⟩
    · exact absurd (mem_append_right _ hm) hinert
  · rw [hch.core, update_apply] at hc
    split at hc
    · exact (ho c hc).2.2
    · exact h.indexes l c hc
  · rw [hch.settled, hch.core, hrefs]
    exact (h.refs i sguid).change hkeyed fun c hc => (ho c hc).1

/-- A version that a queued message removes is older than the row, so none is met again. -/
theorem Lagging.unmarked (h : Lagging digest table w.rings w.ops none)
    (hkeyed : ∀ g c, w.rings.core g = some c → c.id.guid = g) (hC : fresh w a = true) :
    unmarked w.rings a = true := by
  cases a with
  | put row random cb =>
    simp only [Storage.unmarked, fresh, Bool.or_eq_true, List.all_eq_true, decide_eq_true_eq,
      Bool.not_eq_true'] at hC ⊢
    refine hC.imp_right fun hC m hm hr => ?_
    obtain ⟨op, hop, hins⟩ := (h.removals m hm _ hr).1
    exact Bool.noConfusion (hins.symm.trans (hC op hop))
  | modify ctxt row cb =>
    simp only [Storage.unmarked, fresh] at hC ⊢
    cases hc : w.rings.core ctxt.currentRow.guid with
    | none => rfl
    | some c =>
      simp only [hc, Option.all_some, Bool.or_eq_true, Bool.and_eq_true, List.all_eq_true,
        decide_eq_true_eq] at hC ⊢
      by_cases hmatch : c.id.matches ctxt.currentRow = true
      · refine .inr ⟨hC.resolve_left (by simp [hmatch]), fun m hm hr => ?_⟩
        have hlt := (h.removals m hm _ hr).2 c (by rw [RowReference.next_guid, hkeyed _ _ hc, hc])
        rw [RowReference.next_version] at hlt
        omega
      · exact .inl (by simpa using hmatch)
  | _ => rfl

/-- **One step keeps what the indices will hold in line with the rows.** -/
theorem Lagging.effect (handed : List (Context × ℕ)) {ops' : List Op} {o : Option Msg}
    (h : Lagging digest table s ops o) (hrows : RowsInv s) (hC : fresh ⟨s, ops, handed⟩ a = true)
    (heff : Effect digest table s ops o a s' ops') : Lagging digest table s' ops' none := by
  cases heff with
  | quiet hq => exact h.quiet hq
  | put hs hnone hch =>
    rename_i row random cb sguids
    refine h.changed hrows.keyed hch ?_ ?_ ?_ ?_
    · intro c hc
      cases hc
      exact ⟨rfl, ⟨_, mem_cons_self, decide_eq_true rfl⟩, (Table.indexes_of_sguids hs).withGuid⟩
    · intro c _ m hm ref hr hg
      obtain ⟨hused, -⟩ := h.removals m hm ref hr
      exact absurd (hg ▸ hused) (by simpa [fresh, hnone] using hC)
    · intro m hm ref hr
      obtain ⟨x, -, rfl⟩ := mem_map.1 hm
      nomatch hr
    · intro i sguid refs
      rw [hnone]
      exact foldl_indexPut sguids ⟨1, putGuid row random⟩ _ _ _
  | modify hs he hmatch hch =>
    rename_i ctxt row cb sguids e
    have hcore := Rings.core_of_find? he
    have hguid := hrows.keyed _ _ hcore
    have hused := h.used _ _ hcore
    refine h.changed hrows.keyed hch ?_ ?_ ?_ ?_
    · intro c hc
      cases hc
      obtain ⟨op, hop, hins⟩ := hused
      exact ⟨hguid, ⟨op, mem_cons_of_mem _ hop, hins⟩, Table.indexes_of_sguids hs⟩
    · intro c hc m hm ref hr hg
      cases hc
      exact Nat.lt_succ_of_lt ((h.removals m hm ref hr).2 e.core (hg ▸ hcore))
    · intro m hm ref hr
      obtain ⟨x, -, hm⟩ := mem_flatMap.1 hm
      obtain rfl := removes_indexUpdates hm hr
      refine ⟨hguid, hused, fun c hc => ?_⟩
      cases hc
      exact Nat.lt_succ_self _
    · intro i sguid refs
      rw [hcore]
      exact foldl_indexUpdates (h.indexes _ _ hcore) (Table.indexes_of_sguids hs)
  | remove he hmatch hch =>
    rename_i ctxt cb e
    have hcore := Rings.core_of_find? he
    refine h.changed hrows.keyed hch nofun nofun ?_ ?_
    · intro m hm ref hr
      obtain ⟨x, -, rfl⟩ := mem_map.1 hm
      cases hr
      exact ⟨hrows.keyed _ _ hcore, h.used _ _ hcore, nofun⟩
    · intro i sguid refs
      rw [hcore]
      exact e.foldl_indexRemovals
  | erase he _ hempty | callbackErase he _ hempty =>
    exact absurd (hempty.symm.trans (hrows.not_empty he)) Bool.true_eq_false_eq_False
  | deliver _ hruns => exact h.runs hruns
  | callback hq => exact (h.drop fun _ _ _ => rfl).quiet hq
  | callbackRemove he hid _ =>
    have hlt := (h.removals _ mem_cons_self _ rfl).2 _ (Rings.core_of_find? he)
    rw [← hid] at hlt
    exact absurd hlt (lt_irrefl _)

/-- The rows are those of the operations, and the indices lag behind them. -/
structure IndexInv (digest : List UInt8 → GUID) (table : Table) (w : World) : Prop where
  store : StoreInv w
  lagging : Lagging digest table w.rings w.ops none

theorem IndexInv.initial : IndexInv digest table World.initial :=
  ⟨StoreInv.initial, Lagging.initial⟩

theorem IndexInv.step {w' : World} (h : IndexInv digest table w) (hC : fresh w a = true)
    (hstep : w.step digest table a = some w') : IndexInv digest table w' := by
  have hrows := h.store.inv
  refine ⟨h.store.step (h.lagging.unmarked hrows.keyed hC) hstep, ?_⟩
  cases World.next_of_step hstep with
  | request heff _ => exact h.lagging.effect w.handed hrows hC heff
  | delivery hqueue heff hout =>
    rename_i m queue
    have h0 : RowsInv { w.rings with queue } :=
      hrows.of_core_eq rfl fun m' hm' ref hr => ⟨m', hqueue ▸ mem_cons_of_mem m hm', hr⟩
    obtain rfl := heff.act_eq
    exact (h.lagging.pop hqueue).effect [] h0 rfl heff

/-- **Once every message has been delivered, the indices are right.** -/
theorem IndexInv.exact_refs (h : IndexInv digest table w) (hq : w.rings.queue = [])
    (i : String) (sguid : GUID) : Exact w.rings.core i sguid (w.rings.refs i sguid) := by
  have := h.lagging.refs i sguid
  unfold Rings.settled at this
  rw [hq] at this
  exact this

end NoxClassic.Storage
