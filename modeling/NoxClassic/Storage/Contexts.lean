/-
# Contexts and concurrent changes

A client reads a row with `get` or `get_next`, keeps the `Context`, and changes the
row with it later: `modify` and `remove` compare the version in the context with
the row's and report `CONCURRENT_MODIFICATION` when they differ.

Versions of a row grow with every change, so an equal version means that nothing
happened, as long as the row lives.  When it is removed and stored again the
versions start anew, and an old context can meet its version again
(`stale_context_modifies`).
-/

import NoxClassic.Storage.Rows

namespace NoxClassic.Storage

open Function List Option World

open Lib (OrdMap)

/-- The operations that succeeded after the first `n`. -/
def World.since (w : World) (n : ℕ) : List Op := w.ops.take (w.ops.length - n)

/-- The operation stores a new row under the GUID. -/
def Op.inserts (guid : GUID) : Op → Bool
  | .put g _ => g = guid
  | _ => false

/-- Some operation has changed the row of a context handed out after `n` operations. -/
def World.changedSince (w : World) (ctxt : Context) (n : ℕ) : Bool :=
  (w.since n).any fun op => op.guid = ctxt.currentRow.guid

/-- The row was stored anew since, and has the version of the context again. -/
def World.returned (w : World) (ctxt : Context) (n : ℕ) : Bool :=
  ((w.rings.core ctxt.currentRow.guid).any fun c => c.id.toReference = ctxt.currentRow) &&
    (w.since n).any fun op => op.inserts ctxt.currentRow.guid

/-- The row at `ref`, seen when the operations `newer` had not happened: unless it was stored
anew, its version has not gone back, and is the same only if nothing happened to it. -/
def Tracks (core : GUID → Option Core) (newer : List Op) (ref : RowReference) : Prop :=
  (∀ op ∈ newer, op.inserts ref.guid = false) → ∀ c, core ref.guid = some c →
    ref.version ≤ c.id.version ∧
      (c.id.version = ref.version → ∀ op ∈ newer, op.guid ≠ ref.guid)

variable {s s' : Rings}

variable {newer : List Op} {ref : RowReference} {a : Act} {digest : List UInt8 → GUID} {n cb : ℕ}
    {w w' : World} {ctxt : Context} {r : Result × Rings}

section

variable {core core' : GUID → Option Core} (h : Tracks core newer ref)
include h

/-- Rows of other GUIDs, and rows that are gone, are no concern. -/
theorem Tracks.of_core
    (hcore : core' ref.guid = core ref.guid ∨ core' ref.guid = none) : Tracks core' newer ref := by
  intro hins c hc
  rcases hcore with he | he
  · exact h hins c (he ▸ hc)
  · nomatch hc.symm.trans he

theorem Tracks.cons
    {op : Op}
    (hother : op.guid ≠ ref.guid → core' ref.guid = core ref.guid)
    (hsame : op.guid = ref.guid → op.inserts ref.guid = false → ∀ c, core' ref.guid = some c →
      ∃ c0, core ref.guid = some c0 ∧ c0.id.version < c.id.version) :
    Tracks core' (op :: newer) ref := by
  intro hins c hc
  have hins' : ∀ op ∈ newer, op.inserts ref.guid = false :=
    fun op' hop' => hins op' (mem_cons_of_mem _ hop')
  by_cases hg : op.guid = ref.guid
  · obtain ⟨c0, hc0, hlt⟩ := hsame hg (hins op mem_cons_self) c hc
    have hle := (h hins' c0 hc0).1
    exact ⟨by omega, fun he => by omega⟩
  · rw [hother hg] at hc
    obtain ⟨hle, hnone⟩ := h hins' c hc
    refine ⟨hle, fun he op' hop' => ?_⟩
    rcases mem_cons.1 hop' with rfl | hop'
    · exact hg
    · exact hnone he op' hop'

end

/-- Rows lie under their GUIDs. -/
def Keyed (core : GUID → Option Core) : Prop := ∀ g c, core g = some c → c.id.guid = g

theorem Keyed.update {core : GUID → Option Core} (h : Keyed core) {g : GUID} {o : Option Core}
    (ho : ∀ c, o = some c → c.id.guid = g) : Keyed (update core g o) := by
  intro l c hc
  rw [update_apply] at hc
  split_ifs at hc with hl
  · exact (ho c hc).trans hl.symm
  · exact h l c hc

/-- **One step keeps track of every row.** -/
theorem Tracks.effect {table : Table} {ops ops' : List Op} {o : Option Msg} (hkeyed : Keyed s.core)
    (heff : Effect digest table s ops o a s' ops') :
    Keyed s'.core ∧ ∃ new, ops' = new ++ ops ∧
      ∀ newer ref, Tracks s.core newer ref → Tracks s'.core (new ++ newer) ref := by
  have hsame : s'.core = s.core → Keyed s'.core ∧ ∃ new, ops = new ++ ops ∧
      ∀ newer ref, Tracks s.core newer ref → Tracks s'.core (new ++ newer) ref := by
    intro he
    rw [he]
    exact ⟨hkeyed, [], rfl, fun _ _ h => h⟩
  have hgone : ∀ g, s'.core = update s.core g none → Keyed s'.core ∧
      ∃ new, ops = new ++ ops ∧
        ∀ newer ref, Tracks s.core newer ref → Tracks s'.core (new ++ newer) ref := by
    intro g he
    rw [he]
    refine ⟨hkeyed.update nofun, [], rfl, fun newer ref h => h.of_core ?_⟩
    rw [update_apply]
    split
    · exact .inr rfl
    · exact .inl rfl
  cases heff with
  | quiet hq | callback hq => exact hsame hq.core
  | put _ _ hch =>
    rw [hch.core]
    refine ⟨hkeyed.update fun c hc => ?_, [_], rfl, fun newer ref h => h.cons ?_ ?_⟩
    · rw [← some.inj hc]
    · exact fun hg => update_of_ne (Ne.symm hg) _ _
    · intro hg hins
      simp only [Op.inserts, decide_eq_false_iff_not] at hins
      exact absurd hg hins
  | modify _ he _ hch =>
    have hcore := Rings.core_of_find? he
    have hguid := hkeyed _ _ hcore
    rw [hch.core]
    refine ⟨hkeyed.update fun c hc => ?_, [_], rfl, fun newer ref h => h.cons ?_ ?_⟩
    · rw [← some.inj hc]
      exact hguid
    · exact fun hg => update_of_ne (Ne.symm hg) _ _
    · intro hg _ c hc
      simp only [Op.guid] at hg
      rw [← hg, update_self] at hc
      rw [← hg, ← some.inj hc]
      exact ⟨_, hcore, Nat.lt_succ_self _⟩
  | remove _ _ hch =>
    rw [hch.core]
    refine ⟨hkeyed.update nofun, [_], rfl, fun newer ref h => h.cons ?_ ?_⟩
    · exact fun hg => update_of_ne (Ne.symm hg) _ _
    · intro hg _ c hc
      simp only [Op.guid] at hg
      rw [← hg, update_self] at hc
      nomatch hc
  | erase _ _ _ hch | callbackRemove _ _ hch | callbackErase _ _ _ hch => exact hgone _ hch.core
  | deliver _ hruns => exact hsame hruns.core

/-- Every context handed out tracks its row. -/
structure ContextInv (w : World) : Prop where
  keyed : Keyed w.rings.core
  handed : ∀ ctxt n, (ctxt, n) ∈ w.handed → n ≤ w.ops.length ∧
    ∃ ref : RowReference, ctxt.currentRow = ref.toReference ∧ Tracks w.rings.core (w.since n) ref

theorem ContextInv.initial : ContextInv initial :=
  ⟨by simp [Keyed, World.initial, Rings.initial, Rings.core], by simp [World.initial]⟩

theorem World.since_eq_append {new : List Op} (hops : w'.ops = new ++ w.ops)
    (hn : n ≤ w.ops.length) : w'.since n = new ++ w.since n := by
  have hlen : w'.ops.length - n = new.length + (w.ops.length - n) := by
    rw [hops, length_append]
    omega
  rw [since, hlen, hops, take_length_add_append, since]

/-- **One step keeps track of every context.** -/
theorem ContextInv.step {table : Table}
    (h : ContextInv w) (hstep : w.step digest table a = some w') : ContextInv w' := by
  have hmain : ∀ {s o}, Effect digest table s w.ops o a w'.rings w'.ops → s.core = w.rings.core →
      HandsOut w w' → ContextInv w' := by
    intro s o heff hs hout
    obtain ⟨hkeyed, new, hops, htracks⟩ := Tracks.effect (hs ▸ h.keyed) heff
    rw [hs] at htracks
    obtain ⟨ctxts, hhanded, hctxts⟩ := hout
    refine ⟨hkeyed, fun ctxt n hmem => ?_⟩
    have hold : n ≤ w.ops.length ∧ ∃ ref : RowReference, ctxt.currentRow = ref.toReference ∧
        Tracks w.rings.core (w.since n) ref := by
      rw [hhanded, mem_append] at hmem
      rcases hmem with hmem | hmem
      · exact h.handed ctxt n hmem
      -- the context is new, and nothing has happened since
      obtain ⟨ctxt', hctxt', he⟩ := mem_map.1 hmem
      obtain ⟨rfl, rfl⟩ := Prod.mk.inj he
      obtain ⟨g, c, hc, hrow⟩ := hctxts ctxt' hctxt'
      refine ⟨le_rfl, c.id, hrow, fun _ c' hc' => ?_⟩
      rw [h.keyed g c hc, hc] at hc'
      cases hc'
      refine ⟨le_rfl, fun _ op hop => ?_⟩
      rw [since, Nat.sub_self, take_zero] at hop
      nomatch hop
    obtain ⟨hn, ref, href, htr⟩ := hold
    refine ⟨hn.trans ?_, ref, href, ?_⟩
    · rw [hops, length_append]
      omega
    · rw [since_eq_append hops hn]
      exact htracks _ _ htr
  cases next_of_step hstep with
  | request heff hout | delivery _ heff hout => exact hmain heff rfl hout

/-- A context whose row did not return, and was changed since, does not match. -/
theorem ContextInv.not_matches (h : ContextInv w) (hmem : (ctxt, n) ∈ w.handed)
    (hret : w.returned ctxt n = false) (hch : w.changedSince ctxt n = true) {e : ContentEntry}
    (he : w.rings.content.find? ctxt.currentRow.guid = some e) :
    e.id.matches ctxt.currentRow = false := by
  obtain ⟨-, ref, href, htr⟩ := h.handed ctxt n hmem
  rw [Bool.eq_false_iff]
  intro hmatch
  have hcore := Rings.core_of_find? he
  rw [href, RowReference.matches_toReference] at hmatch
  simp only [returned, hcore, any_some, Bool.and_eq_false_iff,
    decide_eq_false_iff_not] at hret
  have hins : ∀ op ∈ w.since n, op.inserts ref.guid = false := by
    rcases hret with hne | hins
    · exact absurd (by rw [href, ← hmatch]; rfl) hne
    · intro op hop
      rw [href] at hins
      exact Bool.eq_false_iff.2 (any_eq_false.1 hins op hop)
  rw [href] at hcore
  have hnone := (htr hins e.core hcore).2 (by rw [← hmatch]; rfl)
  obtain ⟨op, hop, hg⟩ := any_eq_true.1 hch
  rw [href] at hg
  exact hnone op hop (of_decide_eq_true hg)

/-- The callback a message answers. -/
def Msg.answer : Msg → Option ℕ
  | .getReply cb _ _ _ => some cb
  | .putReply cb _ _ => some cb
  | .modifyReply cb _ _ => some cb
  | .removeReply cb _ => cb
  | .putTriggerReply cb _ _ => some cb
  | _ => none

/-- What the client of a context is promised about a change request with the result `r`: it
succeeds only if nothing happened to the row since, and otherwise reports a concurrent
modification and does nothing but answer. -/
structure Guarded (w : World) (ctxt : Context) (n cb : ℕ) (r : Result × Rings) : Prop where
  success : r.1.code = .success → w.changedSince ctxt n = false
  refused : w.changedSince ctxt n = true → r.1.code = .concurrentModification ∧
    ∃ m, m.answer = some cb ∧ r.2 = w.rings.post [m]

theorem Guarded.of_refused
    (h : w.changedSince ctxt n = true → r.1.code = .concurrentModification ∧
      ∃ m, m.answer = some cb ∧ r.2 = w.rings.post [m]) : Guarded w ctxt n cb r := by
  refine ⟨fun hcode => ?_, h⟩
  rw [Bool.eq_false_iff]
  intro hch
  rw [(h hch).1] at hcode
  exact Code.noConfusion hcode

theorem ContextInv.guarded_modify {table : Table} (h : ContextInv w) (hmem : (ctxt, n) ∈ w.handed)
    (hret : w.returned ctxt n = false) {row : Row}
    (hrow : (row.lookup "GUID").all (· = .guid ctxt.currentRow.guid) = true)
    (hr : w.rings.modify digest table ctxt row cb = some r) : Guarded w ctxt n cb r := by
  refine Guarded.of_refused fun hch => ?_
  unfold Rings.modify at hr
  split at hr
  · cases hr
    exact ⟨rfl, _, rfl, rfl⟩
  obtain ⟨sguids, -, rfl⟩ := map_eq_some_iff.1 hr
  rw [if_pos hrow]
  rcases w.rings.contentModify_cases ctxt sguids row cb with ⟨hcode, -, hs⟩ | ⟨-, e, he, hmatch, -⟩
  · exact ⟨hcode, _, rfl, hs⟩
  · rw [h.not_matches hmem hret hch he] at hmatch
    exact Bool.noConfusion hmatch

theorem ContextInv.guarded_remove (h : ContextInv w)
    (hmem : (ctxt, n) ∈ w.handed) (hret : w.returned ctxt n = false)
    (hempty : (w.rings.content.find? ctxt.currentRow.guid).all
      (fun e => !e.empty || e.id.matches ctxt.currentRow) = true) :
    Guarded w ctxt n cb (w.rings.remove ctxt cb) := by
  refine Guarded.of_refused fun hch => ?_
  rcases w.rings.internalRemove_cases ctxt.currentRow (some cb) with ⟨hcode, -, hs⟩ |
    ⟨-, e, he, hmatch, -⟩ | ⟨-, e, he, hmatch, he', -⟩
  · exact ⟨hcode, _, rfl, hs⟩
  · rw [h.not_matches hmem hret hch he] at hmatch
    exact Bool.noConfusion hmatch
  · rw [he, all_some, he', hmatch] at hempty
    exact Bool.noConfusion hempty

/-- **Optimistic concurrency.**  In every state of every run, a `modify` or `remove` with a context
that `get` or `get_next` handed out succeeds only if the row was not changed since, and
otherwise is refused and does nothing; provided that the row was not stored anew and came
back to the version of the context, that `modify` is given a row of the context, and that
`remove` does not meet an empty row of another version. -/
theorem optimistic_concurrency (digest : List UInt8 → GUID) (table : Table) (as : List Act)
    (w : World) (hrun : Lib.run (World.step digest table) World.initial as = some w)
    (ctxt : Context) (n cb : ℕ) (hmem : (ctxt, n) ∈ w.handed) (hret : w.returned ctxt n = false) :
    (∀ row r, (row.lookup "GUID").all (· = .guid ctxt.currentRow.guid) = true →
      w.rings.modify digest table ctxt row cb = some r → Guarded w ctxt n cb r) ∧
    ((w.rings.content.find? ctxt.currentRow.guid).all
        (fun e => !e.empty || e.id.matches ctxt.currentRow) = true →
      Guarded w ctxt n cb (w.rings.remove ctxt cb)) := by
  have h : ContextInv w :=
    Lib.run_invariant (fun _ _ _ h hs => ContextInv.step h hs) ContextInv.initial hrun
  exact ⟨fun row r hrow hr => h.guarded_modify hmem hret hrow hr, (h.guarded_remove hmem hret)⟩

/-- A row is stored and read, and renamed by another client. -/
def readAndRename : List Act :=
  [.put (namedRow "a") 0 0, .get ∅ 1, .deliver, .deliver, .deliver,
    .modify (contextOf 1) (namedRow "b") 0]

/-- The hypotheses of `optimistic_concurrency` are satisfiable: after `readAndRename` the client
that had read the row is refused. -/
theorem optimistic_concurrency_readAndRename :
    ∃ w, Lib.run (World.step sha1OfLetters nameTable) World.initial readAndRename = some w ∧
      w.changedSince (contextOf 1) 1 = true ∧
      Guarded w (contextOf 1) 1 2 (w.rings.remove (contextOf 1) 2) := by
  obtain ⟨w, hw, he⟩ := map_eq_some_iff.1
    (by decide +kernel : (Lib.run (step sha1OfLetters nameTable) initial
        readAndRename).map (fun w => (w.handed, w.changedSince (contextOf 1) 1,
          w.returned (contextOf 1) 1, (w.rings.content.find? 7).all
            (fun e => !e.empty || e.id.matches (contextOf 1).currentRow))) =
      some ([(contextOf 1, 1)], true, false, true))
  simp only [Prod.mk.injEq] at he
  obtain ⟨hmem, hch, hret, hempty⟩ := he
  exact ⟨w, hw, hch, (optimistic_concurrency sha1OfLetters nameTable readAndRename w hw
    (contextOf 1) 1 2 (hmem ▸ mem_singleton_self _) hret).2 hempty⟩

/-- A row is stored and read; then it is removed, and another one is stored under its GUID. -/
def readAndReplace : List Act :=
  [.put (namedRow "a") 0 0, .get ∅ 1, .deliver, .deliver, .deliver, .remove (contextOf 1) 0,
    .put (namedRow "b") 0 0]

/-- **A context changes a row that has replaced the one it was for.** -/
theorem stale_context_modifies :
    ∃ w r, Lib.run (World.step sha1OfLetters nameTable) World.initial readAndReplace = some w ∧
      (contextOf 1, 1) ∈ w.handed ∧ w.changedSince (contextOf 1) 1 = true ∧
      w.rings.modify sha1OfLetters nameTable (contextOf 1) (namedRow "a") 1 = some r ∧
      r.1.code = .success := by
  obtain ⟨w, hw, he⟩ := map_eq_some_iff.1
    (by decide +kernel : (Lib.run (step sha1OfLetters nameTable) initial
        readAndReplace).map (fun w => (w.handed, w.changedSince (contextOf 1) 1,
          (w.rings.modify sha1OfLetters nameTable (contextOf 1) (namedRow "a") 1).map
            (fun r => r.1.code))) =
      some ([(contextOf 1, 1)], true, some .success))
  simp only [Prod.mk.injEq] at he
  obtain ⟨hmem, hch, hr⟩ := he
  obtain ⟨r, hr, hcode⟩ := map_eq_some_iff.1 hr
  exact ⟨w, r, hw, hmem ▸ mem_singleton_self _, hch, hr, hcode⟩

end NoxClassic.Storage
