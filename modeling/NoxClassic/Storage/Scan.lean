/-
# Reading a whole table

A client calls `get` with an empty query and then `get_next` with the context of
each answer until one is not a success, while others store, change and remove rows.
The context holds the GUID of the first row and of the current one.  The scan goes
up from the first, wraps around at the end, and is over when it comes to the first
GUID or passes it again.

It works as long as the wrap finds a row that tells it so.  When the first row is
gone and those that are left all lie above it, the scan does not notice that it
has come around, and repeats them (`scan_repeats_row`); and once it is below the
first GUID it goes around for ever if no row is left above it.

`Scan` is the storage with one such client, whose callback is `cb`.
-/

import NoxClassic.Lib.Sweep
import NoxClassic.Storage.Contexts
import NoxClassic.Storage.Reads

namespace NoxClassic.Storage

open List Option Rings Lib

/-! ### The storage and a client that scans it -/

/-- There is a row with the GUID. -/
def Rings.has (s : Rings) (g : GUID) : Bool := (s.content.find? g).isSome

/-- Where the client is. -/
inductive Phase where
  | idle
  | waiting
  | holding (ctxt : Context)
  | ended

/-- The storage and the client: the GUIDs it was answered, the newest first, those of the rows
that have been there since the scan began, and its calls of `get_next`. -/
structure Scan where
  world : World
  phase : Phase
  seen : List GUID
  kept : List GUID
  calls : ℕ

/-- A table just created, and a client that has not begun. -/
def Scan.initial : Scan := ⟨.initial, .idle, [], [], 0⟩

/-- What the client does, and everything else. -/
inductive ScanAct where
  | start
  | next
  | other (a : Act)

/-- The storage has gone on to `w`. -/
def Scan.after (s : Scan) (w : World) : Scan :=
  { s with world := w, kept := s.kept.filter w.rings.has }

/-- The client takes its answer, if it is the message that the dispatcher runs. -/
def Scan.receive (cb : ℕ) (s : Scan) : Act → Scan
  | .deliver =>
    match s.world.rings.queue with
    | .getReply cb' result ctxt _ :: _ =>
      if cb' ≠ cb then s
      else if result.code = .success then
        { s with phase := .holding ctxt, seen := ctxt.currentRow.guid :: s.seen }
      else { s with phase := .ended }
    | _ => s
  | _ => s

/-- One step; the callback is the client's own. -/
def Scan.step (digest : List UInt8 → GUID) (table : Table) (cb : ℕ) (s : Scan) :
    ScanAct → Option Scan
  | .start =>
    match s.phase with
    | .idle => (s.world.step digest table (.get ∅ cb)).map fun w =>
      { s with world := w, phase := .waiting, kept := w.rings.content.entries.map Prod.fst }
    | _ => none
  | .next =>
    match s.phase with
    | .holding ctxt => (s.world.step digest table (.getNext ctxt cb)).map fun w =>
      { s.after w with phase := .waiting, calls := s.calls + 1 }
    | _ => none
  | .other a =>
    if a.reader = some cb then none
    else (s.world.step digest table a).map (s.receive cb a).after

theorem Scan.kept_after_subset (s : Scan) (w : World) : (s.after w).kept ⊆ s.kept :=
  fun _ hg => (mem_filter.1 hg).1

/-- When `get_next` finds no row above the current one, there is none at all, or the scan has not
wrapped around yet and there is one at or below its first GUID. -/
def Scan.wrapsSafely (s : Scan) : ScanAct → Bool
  | .next =>
    match s.phase with
    | .holding ctxt =>
      let content := s.world.rings.content
      content.isEmpty || (content.upperBound ctxt.currentRow.guid).isSome ||
        (decide (ctxt.initialRow.guid ≤ ctxt.currentRow.guid) &&
          content.entries.any fun e => e.1 ≤ ctxt.initialRow.guid)
    | _ => true
  | _ => true

/-! ### Rows come from `put` -/

/-- The GUIDs of the rows stored so far. -/
def putGuids (ops : List Op) : List GUID :=
  ops.filterMap fun
    | .put g _ => some g
    | _ => none

variable {digest : List UInt8 → GUID} {table : Table}

/-- Every row lies under its GUID and was stored by a `put`. -/
structure Stocked (core : GUID → Option Core) (ops : List Op) : Prop where
  keyed : Keyed core
  put : ∀ g c, core g = some c → g ∈ putGuids ops

variable {s : Rings} {a : Act}

theorem Stocked.effect {s' : Rings} {ops ops' : List Op} {o : Option Msg}
    (h : Stocked s.core ops) (heff : Effect digest table s ops o a s' ops') :
    Stocked s'.core ops' ∧ putGuids ops ⊆ putGuids ops' := by
  obtain ⟨hkeyed, new, hops, -⟩ := Tracks.effect h.keyed heff
  have hsub : putGuids ops ⊆ putGuids ops' := by
    rw [hops, putGuids, putGuids, filterMap_append]
    exact subset_append_right ..
  refine ⟨⟨hkeyed, fun g c hc => ?_⟩, hsub⟩
  have hsame : s'.core = s.core → g ∈ putGuids ops' := fun he => hsub (h.put g c (he ▸ hc))
  -- the row at `l` is replaced, and all others stay
  have hupdate : ∀ l o, s'.core = Function.update s.core l o → (g = l → o = some c →
      g ∈ putGuids ops') → g ∈ putGuids ops' := by
    intro l o he hl
    rw [he, Function.update_apply] at hc
    split_ifs at hc with hg
    · exact hl hg hc
    · exact hsub (h.put g c hc)
  have hgone : ∀ l, s'.core = Function.update s.core l none → g ∈ putGuids ops' :=
    fun l he => hupdate l none he nofun
  cases heff with
  | quiet hq | callback hq => exact hsame hq.core
  | put _ _ hch =>
    refine hupdate _ _ hch.core fun hg _ => ?_
    rw [hg]
    exact mem_cons_self
  | modify _ he _ hch =>
    refine hupdate _ _ hch.core fun hg _ => ?_
    rw [hg]
    exact hsub (h.put _ _ (core_of_find? he))
  | remove _ _ hch | erase _ _ _ hch | callbackRemove _ _ hch | callbackErase _ _ _ hch =>
    exact hgone _ hch.core
  | deliver _ hruns => exact hsame hruns.core

variable {w : World}

theorem Stocked.step {w' : World} (h : Stocked w.rings.core w.ops)
    (hstep : w.step digest table a = some w') :
    Stocked w'.rings.core w'.ops ∧ putGuids w.ops ⊆ putGuids w'.ops := by
  cases World.next_of_step hstep with
  | request heff _ => exact h.effect heff
  | delivery hqueue heff hout =>
    rename_i m queue
    have h0 : Stocked (core { w.rings with queue }) w.ops := h
    exact h0.effect heff

variable {g : GUID}

theorem Stocked.has_mem {ops : List Op} (h : Stocked s.core ops)
    (hg : s.has g = true) : g ∈ putGuids ops := by
  obtain ⟨e, he⟩ := isSome_iff_exists.1 hg
  exact h.put g e.core (core_of_find? he)

/-! ### The answers -/

/-- A message on the way to the client's next answer. -/
inductive Answering (cb : ℕ) (seen kept puts : List GUID) : Msg → Prop
  | asked : seen = [] → Answering cb seen kept puts (.contentGet .empty .any false cb)
  | found {ctxt row} : ctxt.index = "" →
      Swept ctxt.initialRow.guid ctxt.currentRow.guid (ctxt.currentRow.guid :: seen) (· ∈ kept) →
      ctxt.currentRow.guid ∈ puts → Answering cb seen kept puts (.getReply cb .ok ctxt row)
  | finished {result ctxt row} : result.code ≠ .success → (∀ g ∈ kept, g ∈ seen) →
      Answering cb seen kept puts (.getReply cb result ctxt row)

variable {cb : ℕ} {seen kept puts : List GUID}

theorem Answering.mono {kept' puts' : List GUID} {m : Msg} (h : Answering cb seen kept puts m)
    (hk : kept' ⊆ kept) (hp : puts ⊆ puts') : Answering cb seen kept' puts' m := by
  cases h with
  | asked hs => exact .asked hs
  | found hi hswept hc => exact .found hi (hswept.mono fun _ hg => hk hg) (hp hc)
  | finished hr hall => exact .finished hr fun g hg => hall g (hk hg)

theorem Answering.reader {m : Msg} (h : Answering cb seen kept puts m) : m.reader = some cb := by
  cases h <;> rfl

/-- **`get` begins at the least GUID.** -/
theorem Rings.contentGet_answering (hkeyed : Keyed s.core)
    (hputs : ∀ g, s.has g = true → g ∈ puts) (hkept : ∀ g ∈ kept, s.has g = true) :
    ∃ m, s.contentGet .empty .any false cb = s.post [m] ∧ Answering cb [] kept puts m := by
  simp only [contentGet, Bool.false_eq_true, if_false]
  cases hl : s.content.lowerBound Reference.any.guid with
  | none =>
    refine ⟨_, rfl, .finished nofun fun g hg => ?_⟩
    obtain ⟨e, he⟩ := isSome_iff_exists.1 (hkept g hg)
    have := OrdMap.first_eq_none hl he
    simp [Reference.any] at this
  | some p =>
    obtain ⟨g, e⟩ := p
    obtain ⟨hfind, -, hleast⟩ := OrdMap.first_eq_some hl
    have hid : e.id.guid = g := hkeyed g e.core (core_of_find? hfind)
    have hhas : s.has g = true := by rw [has, hfind]; rfl
    refine ⟨_, rfl, .found rfl ?_ ?_⟩
    · refine Swept.start fun k hk => ?_
      obtain ⟨e', he'⟩ := isSome_iff_exists.1 (hkept k hk)
      show e.id.guid ≤ k
      rw [hid]
      exact hleast k e' he' (by simp [Reference.any])
    · show e.id.guid ∈ puts
      rw [hid]
      exact hputs g hhas

/-- Some key is found by `upper_bound`, the least above. -/
theorem Rings.upperBound_eq_some (hkeyed : Keyed s.core) {k : GUID}
    {e : ContentEntry} (h : s.content.upperBound g = some (k, e)) :
    e.id.guid = k ∧ s.has k = true ∧ g < k ∧ ∀ l, s.has l = true → g < l → k ≤ l := by
  obtain ⟨hfind, hlt, hleast⟩ := OrdMap.first_eq_some h
  refine ⟨hkeyed k e.core (core_of_find? hfind), ?_, of_decide_eq_true hlt, fun l hl hgl => ?_⟩
  · rw [has, hfind]
    rfl
  · obtain ⟨e', he'⟩ := isSome_iff_exists.1 hl
    exact hleast l e' he' (decide_eq_true hgl)

theorem Rings.upperBound_eq_none (h : s.content.upperBound g = none)
    {l : GUID} (hl : s.has l = true) : l ≤ g := by
  obtain ⟨e, he⟩ := isSome_iff_exists.1 hl
  exact not_lt.1 (of_decide_eq_false (OrdMap.first_eq_none h he))

/-- **`get_next` goes on, or the scan is complete.** -/
theorem Rings.contentGetNext_answering {ctxt : Context} (hkeyed : Keyed s.core)
    (hputs : ∀ g, s.has g = true → g ∈ puts) (hkept : ∀ g ∈ kept, s.has g = true)
    (hindex : ctxt.index = "")
    (hswept : Swept ctxt.initialRow.guid ctxt.currentRow.guid seen (· ∈ kept))
    (hsafe : s.content.upperBound ctxt.currentRow.guid = none → ∀ k, s.has k = true →
      ctxt.initialRow.guid ≤ ctxt.currentRow.guid ∧
        ∃ l, s.has l = true ∧ l ≤ ctxt.initialRow.guid) :
    ∃ m, s.contentGetNext ctxt cb = s.post [m] ∧ Answering cb seen kept puts m := by
  generalize hf : ctxt.initialRow.guid = first at *
  generalize hc : ctxt.currentRow.guid = current at *
  have hover : (current < first ∨ ∀ l ∈ kept, l ≤ current) →
      ∃ m, s.post [.getReply cb ⟨.noMoreRows, "End of rows."⟩ ctxt ∅] = s.post [m] ∧
        Answering cb seen kept puts m :=
    fun hend => ⟨_, rfl, .finished nofun (hswept.complete hend)⟩
  have hfound : ∀ (k : GUID) (e : ContentEntry), e.id.guid = k → s.has k = true →
      Swept first k (k :: seen) (· ∈ kept) →
      ∃ m, s.post [e.getNext ctxt cb] = s.post [m] ∧ Answering cb seen kept puts m := by
    rintro k e rfl hk hsw
    refine ⟨_, rfl, .found hindex ?_ (hputs _ hk)⟩
    rw [← hf] at hsw
    exact hsw
  simp only [contentGetNext, hf, hc]
  cases hu : s.content.upperBound current with
  | some p =>
    obtain ⟨k, e⟩ := p
    obtain ⟨hid, hk, hlt, hleast⟩ := upperBound_eq_some hkeyed hu
    simp only [some_or]
    rcases lt_or_ge current first with hcf | hcf
    · -- below the first GUID: the scan ends where it would pass it
      split
      · exact hover (.inl hcf)
      split_ifs with hpass
      · exact hover (.inl hcf)
      · have hkf : k < first := by
          by_contra hkf
          exact hpass ⟨hcf, hkf⟩
        exact hfound k e hid hk (hswept.next_below hcf hlt hkf)
    · rw [if_neg (hcf.trans_lt hlt).ne', if_neg fun h => absurd hcf (not_le.2 h.1)]
      exact hfound k e hid hk (hswept.next_above hcf hlt fun l hl hcl => hleast l (hkept l hl) hcl)
  | none =>
    have hlast : ∀ l ∈ kept, l ≤ current := fun l hl => upperBound_eq_none hu (hkept l hl)
    cases hl : s.content.lowerBound 0 with
    | none => exact hover (.inr hlast)
    | some p =>
      obtain ⟨k, e⟩ := p
      obtain ⟨hfind, -, hleast⟩ := OrdMap.first_eq_some hl
      have hid : e.id.guid = k := hkeyed k e.core (core_of_find? hfind)
      have hk : s.has k = true := by rw [has, hfind]; rfl
      obtain ⟨hcf, l, hlhas, hlf⟩ := hsafe hu k hk
      simp only [none_or]
      split
      · exact hover (.inr hlast)
      rename_i hne
      rw [if_neg fun h => absurd hcf (not_le.2 h.1)]
      have hkl : k ≤ l := by
        obtain ⟨e', he'⟩ := isSome_iff_exists.1 hlhas
        exact hleast l e' he' (by simp)
      have hkf : k < first := lt_of_le_of_ne (hkl.trans hlf) hne
      exact hfound k e hid hk (hswept.wrap hcf hkf hlast)

/-! ### Runs -/

/-- What is known of the scan in each phase; `queue` are the messages posted. -/
inductive InPhase (cb : ℕ) (queue : List Msg) (seen kept puts : List GUID) (calls : ℕ) :
    Phase → Prop
  | idle : pending cb queue = [] → seen = [] → InPhase cb queue seen kept puts calls .idle
  | waiting {m} : pending cb queue = [m] → Answering cb seen kept puts m →
      InPhase cb queue seen kept puts calls .waiting
  | holding {ctxt} : pending cb queue = [] → ctxt.index = "" →
      Swept ctxt.initialRow.guid ctxt.currentRow.guid seen (· ∈ kept) → calls < seen.length →
      InPhase cb queue seen kept puts calls (.holding ctxt)
  | ended : pending cb queue = [] → (∀ g ∈ kept, g ∈ seen) →
      InPhase cb queue seen kept puts calls .ended

variable {queue : List Msg}

theorem InPhase.mono {queue' : List Msg} {kept' puts' : List GUID} {calls : ℕ} {p : Phase}
    (h : InPhase cb queue seen kept puts calls p) (hq : pending cb queue' = pending cb queue)
    (hk : kept' ⊆ kept) (hp : puts ⊆ puts') : InPhase cb queue' seen kept' puts' calls p := by
  cases h with
  | idle hn hs => exact .idle (hq.trans hn) hs
  | waiting hm ha => exact .waiting (hq.trans hm) (ha.mono hk hp)
  | holding hn hi hsw hc => exact .holding (hq.trans hn) hi (hsw.mono fun _ hg => hk hg) hc
  | ended hn hall => exact .ended (hq.trans hn) fun g hg => hall g (hk hg)

/-- The scan has met no GUID twice, and none that was not stored. -/
structure ScanInv (cb : ℕ) (s : Scan) : Prop where
  stocked : Stocked s.world.rings.core s.world.ops
  kept : ∀ g ∈ s.kept, s.world.rings.has g = true
  nodup : s.seen.Nodup
  put : s.seen ⊆ putGuids s.world.ops
  calls : s.calls ≤ s.seen.length
  phase : InPhase cb s.world.rings.queue s.seen s.kept (putGuids s.world.ops) s.calls s.phase

theorem ScanInv.initial (cb : ℕ) : ScanInv cb Scan.initial where
  stocked := ⟨nofun, nofun⟩
  kept _ hg := nomatch hg
  nodup := nodup_nil
  put _ hg := nomatch hg
  calls := le_rfl
  phase := .idle rfl rfl

/-- A row in the list of the keys is there. -/
theorem Rings.has_of_mem_keys (h : g ∈ s.content.entries.map Prod.fst) : s.has g = true := by
  obtain ⟨e, he, rfl⟩ := mem_map.1 h
  exact isSome_iff_exists.2 ⟨e.2, OrdMap.find?_eq_some_iff.2 he⟩

theorem pending_post_self (hq : pending cb s.queue = []) {m : Msg}
    (hm : m.reader = some cb) : pending cb (s.post [m]).queue = [m] := by
  rw [post_queue, pending_append, hq, nil_append, pending, filter_cons_of_pos]
  · rfl
  · simpa using hm

theorem ScanInv.start {s s' : Scan} (h : ScanInv cb s)
    (hstep : s.step digest table cb .start = some s') : ScanInv cb s' := by
  simp only [Scan.step] at hstep
  split at hstep
  · rename_i hphase
    obtain ⟨w, hw, rfl⟩ := map_eq_some_iff.1 hstep
    obtain ⟨hstocked, hputs⟩ := h.stocked.step hw
    cases hw
    have hin := h.phase
    rw [hphase] at hin
    cases hin with
    | idle hq hseen =>
      exact ⟨hstocked, fun g => has_of_mem_keys, h.nodup, h.put, h.calls,
        .waiting (pending_post_self hq rfl) (.asked hseen)⟩
  · nomatch hstep

/-- What the condition says of the rows. -/
theorem wrap_of_wrapsSafely {s : Scan} {ctxt : Context} (hphase : s.phase = .holding ctxt)
    (hC : s.wrapsSafely .next = true)
    (hu : s.world.rings.content.upperBound ctxt.currentRow.guid = none) (k : GUID)
    (hk : s.world.rings.has k = true) :
    ctxt.initialRow.guid ≤ ctxt.currentRow.guid ∧
      ∃ l, s.world.rings.has l = true ∧ l ≤ ctxt.initialRow.guid := by
  simp only [Scan.wrapsSafely, hphase, hu, Option.isSome_none, Bool.or_false, Bool.or_eq_true,
    Bool.and_eq_true, decide_eq_true_eq, List.any_eq_true] at hC
  rcases hC with hempty | ⟨hle, p, hp, hpl⟩
  · obtain ⟨e, he⟩ := Option.isSome_iff_exists.1 hk
    have := OrdMap.find?_eq_some_iff.1 he
    rw [List.isEmpty_iff.1 hempty] at this
    nomatch this
  · exact ⟨hle, p.1, has_of_mem_keys (List.mem_map_of_mem hp), hpl⟩

theorem ScanInv.next {s s' : Scan} (h : ScanInv cb s) (hC : s.wrapsSafely .next = true)
    (hstep : s.step digest table cb .next = some s') : ScanInv cb s' := by
  simp only [Scan.step] at hstep
  split at hstep
  · rename_i ctxt hphase
    obtain ⟨w, hw, rfl⟩ := map_eq_some_iff.1 hstep
    obtain ⟨hstocked, hputs⟩ := h.stocked.step hw
    have hin := h.phase
    rw [hphase] at hin
    cases hin with
    | holding hq hi hsw hlt =>
      obtain ⟨m, hm, ha⟩ := contentGetNext_answering h.stocked.keyed
        (fun g => h.stocked.has_mem) h.kept hi hsw (wrap_of_wrapsSafely hphase hC)
      have hnext : s.world.rings.getNext table ctxt cb = s.world.rings.post [m] := by
        rw [getNext, if_neg (not_not.2 hi), hm]
      simp only [World.step, hnext, some.injEq] at hw
      subst hw
      have hkept : ∀ g ∈ (s.after (s.world.after s.world.rings.queue
          (s.world.rings.post [m]))).kept, s.world.rings.has g = true :=
        fun g hg => (mem_filter.1 hg).2
      exact ⟨hstocked, hkept, h.nodup, h.put, hlt, .waiting (pending_post_self hq ha.reader)
        (ha.mono (Scan.kept_after_subset _ _) hputs)⟩
  · nomatch hstep

/-- A message that is not for the client is not received. -/
theorem Scan.receive_of_reader {s : Scan} {m : Msg} (hq : s.world.rings.queue = m :: queue)
    (hm : m.reader ≠ some cb) : s.receive cb .deliver = s := by
  unfold Scan.receive
  simp only [hq]
  split
  · rename_i cb' result ctxt row queue' he
    obtain ⟨rfl, -⟩ := List.cons.inj he
    exact if_pos fun he => hm (congrArg some he)
  · rfl

/-- The world goes on with the same messages for the client. -/
theorem ScanInv.after {s : Scan} (h : ScanInv cb s) (hstep : s.world.step digest table a = some w)
    (hq : pending cb w.rings.queue = pending cb s.world.rings.queue) : ScanInv cb (s.after w) := by
  obtain ⟨hstocked, hputs⟩ := h.stocked.step hstep
  exact ⟨hstocked, fun g hg => (mem_filter.1 hg).2, h.nodup, fun g hg => hputs (h.put hg),
    h.calls, h.phase.mono hq (Scan.kept_after_subset _ _) hputs⟩

theorem World.step_deliver {w' : World} (hstep : w.step digest table .deliver = some w') :
    ∃ m queue, w.rings.queue = m :: queue ∧ w'.rings = handle { w.rings with queue } m := by
  obtain ⟨s', hs', rfl⟩ := map_eq_some_iff.1 hstep
  unfold deliver at hs'
  split at hs'
  · nomatch hs'
  · rename_i m queue hq
    exact ⟨m, queue, hq, (some.inj hs').symm⟩

/-- **The dispatcher runs a message on the way to the client's answer, or the answer itself.** -/
theorem ScanInv.answer {s : Scan} {m : Msg} (h : ScanInv cb s)
    (hstep : s.world.step digest table .deliver = some w)
    (hqueue : s.world.rings.queue = m :: queue)
    (hw : w.rings = handle { s.world.rings with queue } m) (hm : m.reader = some cb) :
    ScanInv cb ((s.receive cb .deliver).after w) := by
  obtain ⟨hstocked, hputs⟩ := h.stocked.step hstep
  have hpending : pending cb s.world.rings.queue = m :: pending cb queue := by
    rw [hqueue]
    exact filter_cons_of_pos (by simpa using hm)
  have hin := h.phase
  generalize hp : s.phase = p at hin
  cases hin with
  | idle hn | holding hn | ended hn => exact absurd (hpending.symm.trans hn) (cons_ne_nil _ _)
  | waiting hone ha =>
    obtain ⟨rfl, hrest⟩ := List.cons.inj (hpending.symm.trans hone)
    cases ha with
    | asked hseen =>
      obtain ⟨m', hm', ha'⟩ := contentGet_answering (s := { s.world.rings with queue })
        h.stocked.keyed (fun g => h.stocked.has_mem) h.kept
      have hreceive : s.receive cb .deliver = s := by
        simp only [Scan.receive, hqueue]
      have hq : pending cb w.rings.queue = [m'] := by
        rw [hw, handle, hm']
        exact pending_post_self hrest ha'.reader
      rw [hreceive]
      refine ⟨hstocked, fun g hg => (mem_filter.1 hg).2, h.nodup,
        fun g hg => hputs (h.put hg), h.calls, ?_⟩
      rw [Scan.after, hp, hseen]
      exact .waiting hq (ha'.mono (Scan.kept_after_subset _ _) hputs)
    | found hi hsw hc =>
      rename_i ctxt row
      have hreceive : s.receive cb .deliver =
          { s with phase := .holding ctxt, seen := ctxt.currentRow.guid :: s.seen } := by
        simp [Scan.receive, hqueue, Result.ok]
      have hq : pending cb w.rings.queue = [] := by
        rw [hw]
        exact hrest
      have hcalls := h.calls
      rw [hreceive]
      refine ⟨hstocked, fun g hg => (mem_filter.1 hg).2, hsw.nodup, fun g hg => ?_, ?_,
        .holding hq hi (hsw.mono fun g hg => Scan.kept_after_subset _ _ hg) ?_⟩
      · rcases mem_cons.1 hg with rfl | hg
        · exact hputs hc
        · exact hputs (h.put hg)
      · exact Nat.le_succ_of_le hcalls
      · exact Nat.lt_succ_of_le hcalls
    | finished hcode hall =>
      have hreceive : s.receive cb .deliver = { s with phase := .ended } := by
        simp [Scan.receive, hqueue, hcode]
      have hq : pending cb w.rings.queue = [] := by
        rw [hw]
        exact hrest
      rw [hreceive]
      exact ⟨hstocked, fun g hg => (mem_filter.1 hg).2, h.nodup,
        fun g hg => hputs (h.put hg), h.calls,
        .ended hq fun g hg => hall g (Scan.kept_after_subset _ _ hg)⟩

theorem ScanInv.step {s s' : Scan} {a : ScanAct} (h : ScanInv cb s) (hC : s.wrapsSafely a = true)
    (hstep : s.step digest table cb a = some s') : ScanInv cb s' := by
  cases a with
  | start => exact h.start hstep
  | next => exact h.next hC hstep
  | other a =>
    simp only [Scan.step] at hstep
    split at hstep
    · nomatch hstep
    rename_i ha
    obtain ⟨w, hw, rfl⟩ := map_eq_some_iff.1 hstep
    by_cases hd : a = .deliver
    · subst hd
      obtain ⟨m, queue, hq, hr⟩ := World.step_deliver hw
      by_cases hm : m.reader = some cb
      · exact h.answer hw hq hr hm
      · rw [Scan.receive_of_reader hq hm]
        refine h.after hw ?_
        rw [hr, pending_handle hm, hq]
        exact (filter_cons_of_neg (by simpa using hm)).symm
    · have hreceive : s.receive cb a = s := by
        cases a with
        | deliver => exact absurd rfl hd
        | _ => rfl
      rw [hreceive]
      exact h.after hw (pending_request ha hd hw)

/-- The scan met no GUID twice; when it is over it has met every row that was there from its
beginning to its end; and it takes no more calls of `get_next` than rows were stored. -/
structure ScanOk (s : Scan) : Prop where
  nodup : s.seen.Nodup
  complete : s.phase = .ended → ∀ g ∈ s.kept, g ∈ s.seen
  bounded : s.calls ≤ (putGuids s.world.ops).length

theorem ScanInv.scanOk {s : Scan} (h : ScanInv cb s) : ScanOk s where
  nodup := h.nodup
  complete hp := by
    have hin := h.phase
    rw [hp] at hin
    cases hin with
    | ended _ hall => exact hall
  bounded := h.calls.trans (subperm_of_subset h.nodup h.put).length_le

/-- **A scan repeats no row and misses none**, in every state of every run in which each
`get_next` that finds no row above the current one is still above the first GUID and finds a
row at or below it, or finds no row at all. -/
theorem full_scan (digest : List UInt8 → GUID) (table : Table) (cb : ℕ) (as : List ScanAct)
    (s : Scan) (hrun : run (Scan.step digest table cb) Scan.initial as = some s)
    (hC : Along (Scan.step digest table cb) (fun s a => s.wrapsSafely a = true)
      Scan.initial as) : ScanOk s :=
  ScanInv.scanOk (run_invariant_of_along (fun _ _ _ h hC hs => ScanInv.step h hC hs)
    (ScanInv.initial cb) hC hrun)

/-- A table without indices whose rows have a GUID only. -/
def plainTable : Table where
  name := "t"
  columns := (∅ : AList fun _ : String => ColumnType).insert "GUID" .guid
  indices := ∅
  guid_column := rfl
  index_names := AList.lookup_empty _

/-- The row with the GUID `g`. -/
def guidRow (g : GUID) : Row := (∅ : Row).insert "GUID" (.guid g)

/-- The rows 5 and 9 are stored and a scan is begun and answered. -/
def beginScan : List ScanAct :=
  [.other (.put (guidRow 5) 0 0), .other (.put (guidRow 9) 0 0), .start, .other .deliver,
    .other .deliver, .other .deliver, .other .deliver]

/-- Nothing happens to the rows. -/
def undisturbedScan : List ScanAct :=
  beginScan ++ [.next, .other .deliver, .next, .other .deliver]

/-- The hypotheses of `full_scan` are satisfiable. -/
theorem full_scan_undisturbedScan :
    ∃ s, run (Scan.step sha1OfLetters plainTable 1) Scan.initial undisturbedScan = some s ∧
      s.seen = [9, 5] ∧ s.kept = [5, 9] ∧ ScanOk s := by
  obtain ⟨s, hs, he⟩ := map_eq_some_iff.1
    (by decide +kernel : (run (Scan.step sha1OfLetters plainTable 1) Scan.initial
        undisturbedScan).map (fun s => (s.seen, s.kept)) = some ([9, 5], [5, 9]))
  obtain ⟨hseen, hkept⟩ := Prod.mk.inj he
  exact ⟨s, hs, hseen, hkept, full_scan sha1OfLetters plainTable 1 undisturbedScan s hs
    (by decide +kernel)⟩

/-- The first row is removed after the scan has begun. -/
def disturbedScan : List ScanAct :=
  beginScan ++ [.other (.remove { Context.empty with currentRow := ⟨1, 5, false⟩ } 0), .next,
    .other .deliver, .other .deliver, .next, .other .deliver]

/-- **A scan whose first row is removed repeats the rows that are left.** -/
theorem scan_repeats_row :
    ∃ s, run (Scan.step sha1OfLetters plainTable 1) Scan.initial disturbedScan = some s ∧
      s.seen = [9, 9, 5] := by
  obtain ⟨s, hs, he⟩ := map_eq_some_iff.1
    (by decide +kernel : (run (Scan.step sha1OfLetters plainTable 1) Scan.initial
        disturbedScan).map (fun s => s.seen) = some [9, 9, 5])
  exact ⟨s, hs, he⟩

end NoxClassic.Storage
