/-
# The state of the network

`nox/netapps/networkstate`: `switchrtt` sends echo requests to the datapaths, one at a time, and
measures how long the reply takes.  `echoSent` has one probe for each datapath, and `insert`
keeps the probe that is there: after a lost reply the table has the old probe until the
datapath leaves.  The measurement is right in the runs that `Answered` describes.

`datapathmem` keeps the datapaths that have joined, and `linkload` and `switchrtt` go through them
with a cursor each, an iterator of its hash map.  No handler sees to the cursors when the map
changes, so that they stay live in the runs that `Heeds` describes.
-/

import Mathlib.Data.Nat.Notation
import Mathlib.Logic.Function.Basic
import NoxClassic.Lib.Run

namespace NoxClassic.NetworkState

open Function Lib List

/-- `echoSent`, with the xid and the time of a probe, and `rtt`. -/
structure Rtt where
  echoSent : ℕ → Option (ℕ × ℕ)
  rtt : ℕ → Option ℕ

/-- What `switchrtt` does and hears.  The xid of a probe is the one in `of_raw`, which the
constructor packs once. -/
inductive Exchange where
  | probe (dp xid now : ℕ)
  | reply (dp xid now : ℕ)
  | leave (dp : ℕ)

namespace Rtt

/-- The part of `periodic_probe` that records the time; `insert` leaves an entry as it is. -/
def recordProbe (s : Rtt) (dp xid now : ℕ) : Rtt :=
  { s with echoSent := update s.echoSent dp ((s.echoSent dp).or (some (xid, now))) }

/-- `handle_openflow_msg` for an echo reply. -/
def handleOpenflowMsg (s : Rtt) (dp xid now : ℕ) : Rtt :=
  match s.echoSent dp with
  | none => s
  | some (sent, time) =>
    if xid ≠ sent then s
    else
      { echoSent := update s.echoSent dp none
        rtt := update s.rtt dp (some (now - time)) }

/-- `handle_dp_leave`. -/
def handleDpLeave (s : Rtt) (dp : ℕ) : Rtt :=
  { echoSent := update s.echoSent dp none
    rtt := update s.rtt dp none }

/-- One event. -/
def step (s : Rtt) : Exchange → Rtt
  | .probe dp xid now => s.recordProbe dp xid now
  | .reply dp xid now => s.handleOpenflowMsg dp xid now
  | .leave dp => s.handleDpLeave dp

/-- No probe was sent. -/
def init : Rtt := ⟨fun _ => none, fun _ => none⟩

end Rtt

/-- The last probe of each datapath, with its time, until its reply comes or the datapath leaves. -/
def await (m : ℕ → Option (ℕ × ℕ)) : Exchange → ℕ → Option (ℕ × ℕ)
  | .probe dp xid now => update m dp (some (xid, now))
  | .reply dp xid _ => update m dp ((m dp).filter (·.1 ≠ xid))
  | .leave dp => update m dp none

/-- No datapath is probed while the reply to its last probe is awaited. -/
def Answered (m : ℕ → Option (ℕ × ℕ)) : List Exchange → Prop
  | [] => True
  | e :: es => (∀ dp xid now, e = .probe dp xid now → m dp = none) ∧ Answered (await m e) es

theorem step_echoSent (s : Rtt) {e : Exchange}
    (h : ∀ dp xid now, e = .probe dp xid now → s.echoSent dp = none) :
    (s.step e).echoSent = await s.echoSent e := by
  cases e with
  | probe dp xid now => simp [Rtt.step, Rtt.recordProbe, await, h dp xid now rfl]
  | leave dp => rfl
  | reply dp xid now =>
    unfold Rtt.step Rtt.handleOpenflowMsg await
    cases hsent : s.echoSent dp with
    | none => simp [hsent]
    | some p =>
      by_cases hxid : xid = p.1
      · simp [hsent, hxid, Option.filter]
      · simp [hsent, hxid, Ne.symm hxid, Option.filter]

/-- The table has the probes whose replies are awaited. -/
theorem run_echoSent (s : Rtt) {es : List Exchange} (h : Answered s.echoSent es) :
    (es.foldl Rtt.step s).echoSent = es.foldl await s.echoSent := by
  induction es generalizing s with
  | nil => rfl
  | cons e es ih =>
    have hstep := step_echoSent s h.1
    rw [foldl_cons, foldl_cons, ih _ (hstep ▸ h.2), hstep]

/-- **The reply to the last probe is measured, and no other one.** -/
theorem rtt_measured {es : List Exchange} (h : Answered (fun _ => none) es) (dp xid now : ℕ) :
    let s := es.foldl Rtt.step Rtt.init
    let sent := es.foldl await (fun _ => none) dp
    (∀ time, sent = some (xid, time) →
      (s.step (.reply dp xid now)).rtt = update s.rtt dp (some (now - time))) ∧
    ((∀ time, sent ≠ some (xid, time)) → s.step (.reply dp xid now) = s) := by
  intro s sent
  have hsent : s.echoSent dp = sent := congrFun (run_echoSent Rtt.init h) dp
  rw [show s.step (.reply dp xid now) = s.handleOpenflowMsg dp xid now from rfl,
    Rtt.handleOpenflowMsg, hsent]
  refine ⟨fun time ht => ?_, fun hne => ?_⟩
  · simp [ht]
  · cases hs : sent with
    | none => rfl
    | some p => exact if_pos fun hxid => hne p.2 (by rw [hs, hxid])

/-- Two probes, each answered in its turn, and a reply that comes again. -/
theorem rtt_measured_twice :
    let s := [Exchange.probe 1 7 10, .reply 1 7 25, .probe 1 8 40].foldl Rtt.step Rtt.init
    (s.step (.reply 1 8 44)).rtt 1 = some 4 ∧ s.step (.reply 1 7 41) = s := by
  have h : Answered (fun _ => none) [.probe 1 7 10, .reply 1 7 25, .probe 1 8 40] := by
    simp [Answered, await]
  refine ⟨?_, (rtt_measured h 1 7 41).2 (by simp [await])⟩
  rfl

/-- The reply to the first probe is lost.  The reply to the second is measured from the first, if
the probes have one xid, or not at all. -/
theorem rtt_lost_reply :
    let s (xid : ℕ) := [Exchange.probe 1 7 10, .probe 1 xid 20].foldl Rtt.step Rtt.init
    ((s 7).step (.reply 1 7 25)).rtt 1 = some 15 ∧ (s 8).step (.reply 1 8 25) = s 8 :=
  ⟨rfl, rfl⟩

/-! ### The cursors -/

/-- A port, as far as it is read. -/
structure Port where
  portNo : ℕ
  speed : ℕ

/-- `OFPPR_ADD`, `OFPPR_DELETE` and `OFPPR_MODIFY`. -/
inductive Reason where
  | add
  | delete
  | modify

/-- An iterator into `dp_events`: at the end, at an entry, or not valid any more. -/
inductive Cursor where
  | stop
  | entry (dp : ℕ)
  | lost
  deriving DecidableEq

/-- The components that have a cursor. -/
inductive Prober where
  | linkload
  | switchrtt
  deriving DecidableEq

/-- `dp_events`, its keys in the order of iteration, and `dpi` of both components. -/
structure Table where
  dps : List ℕ
  ports : ℕ → List Port
  dpi : Prober → Cursor

/-- What the components are called for.  A datapath that joins takes some place in the order. -/
inductive Call where
  | join (dp : ℕ) (ports : List Port) (place : ℕ) (rehash : Bool)
  | leave (dp : ℕ)
  | portStatus (dp : ℕ) (reason : Reason) (port : Port)
  | linkSpeed (dp port : ℕ)
  | probe (who : Prober)

/-- The first entry of a range, or the end. -/
def Cursor.first (dps : List ℕ) : Cursor := dps.head?.elim .stop .entry

/-- The datapath that `stat_probe` and `periodic_probe` send to, if there is any, and the cursor
behind it; a lost cursor cannot be used. -/
def probe (dps : List ℕ) (dpi : Cursor) : Option (Option (ℕ × Cursor)) :=
  if dps = [] then some none
  else do
    let dp ← match dpi with
      | .stop => dps.head?
      | .entry dp => some dp
      | .lost => none
    return some (dp, .first (dps.dropWhile (· ≠ dp)).tail)

/-- What `handle_port_event` does with the ports; the loop that looks for the port does not stop at
the last one. -/
def Reason.change (reason : Reason) (port : Port) (ports : List Port) : Option (List Port) :=
  let found := ports.findIdx? (·.portNo = port.portNo)
  match reason with
  | .add => some (ports ++ [port])
  | .delete => found.map ports.eraseIdx
  | .modify => found.map fun j => ports.set j port

namespace Table

/-- `handle_dp_join`; no iterator is valid after a rehash. -/
def handleDpJoin (s : Table) (dp : ℕ) (ports : List Port) (place : ℕ) (rehash : Bool) : Table :=
  if dp ∈ s.dps then s
  else
    { dps := s.dps.take place ++ dp :: s.dps.drop place
      ports := update s.ports dp ports
      dpi who := if rehash then .lost else s.dpi who }

/-- `handle_dp_leave`. -/
def handleDpLeave (s : Table) (dp : ℕ) : Table :=
  { s with
    dps := s.dps.filter (· ≠ dp)
    dpi who := if s.dpi who = .entry dp then .lost else s.dpi who }

/-- `handle_port_event`. -/
def handlePortEvent (s : Table) (dp : ℕ) (reason : Reason) (port : Port) : Option Table :=
  if dp ∉ s.dps then some s
  else (reason.change port (s.ports dp)).map fun ports =>
    { s with ports := update s.ports dp ports }

/-- `get_link_speed`, which dereferences what `find` returns. -/
def getLinkSpeed (s : Table) (dp port : ℕ) : Option ℕ :=
  if dp ∈ s.dps then some (((s.ports dp).find? (·.portNo = port)).elim 0 Port.speed) else none

/-- One call; `none` where the code uses what is not there. -/
def call (s : Table) : Call → Option Table
  | .join dp ports place rehash => some (s.handleDpJoin dp ports place rehash)
  | .leave dp => some (s.handleDpLeave dp)
  | .portStatus dp reason port => s.handlePortEvent dp reason port
  | .linkSpeed dp port => (s.getLinkSpeed dp port).map fun _ => s
  | .probe who => do
    let r ← probe s.dps (s.dpi who)
    return r.elim s fun (_, dpi) => { s with dpi := update s.dpi who dpi }

/-- `install` of both components. -/
def install (dps : List ℕ) (ports : ℕ → List Port) : Table := ⟨dps, ports, fun _ => .first dps⟩

/-- The ports of a datapath that has joined. -/
def lookup (s : Table) (dp : ℕ) : Option (List Port) :=
  if dp ∈ s.dps then some (s.ports dp) else none

/-- The call names a port or a datapath that is there, and no cursor is lost. -/
def Heeds (s : Table) : Call → Prop
  | .join dp _ _ rehash => dp ∈ s.dps ∨ rehash = false
  | .leave dp => ∀ who, s.dpi who ≠ .entry dp
  | .portStatus dp reason port =>
    dp ∉ s.dps ∨ reason = .add ∨ ∃ p ∈ s.ports dp, p.portNo = port.portNo
  | .linkSpeed dp _ => dp ∈ s.dps
  | .probe _ => True

end Table

/-- The ports of the datapaths that have joined, with the port events in order. -/
def track (m : ℕ → Option (List Port)) : Call → ℕ → Option (List Port)
  | .join dp ports _ _ => update m dp ((m dp).or (some ports))
  | .leave dp => update m dp none
  | .portStatus dp reason port =>
    update m dp ((m dp).map fun ports => (reason.change port ports).getD ports)
  | _ => m

/-- At the end, or at an entry. -/
def Cursor.Live (dps : List ℕ) : Cursor → Prop
  | .stop => True
  | .entry dp => dp ∈ dps
  | .lost => False

theorem Cursor.live_first {dps dps' : List ℕ} (h : dps ⊆ dps') : (first dps).Live dps' := by
  cases dps with
  | nil => trivial
  | cons dp dps => exact h mem_cons_self

theorem Cursor.Live.mono {dps dps' : List ℕ} {dpi : Cursor} (h : dpi.Live dps)
    (hsub : ∀ dp ∈ dps, dpi = .entry dp → dp ∈ dps') : dpi.Live dps' := by
  cases dpi with
  | stop => trivial
  | entry dp => exact hsub dp h rfl
  | lost => exact h

/-- A live cursor gives a datapath, and one behind it that is live again. -/
theorem probe_spec {dps : List ℕ} {dpi : Cursor} (h : dpi.Live dps) :
    ∃ r, probe dps dpi = some r ∧ ∀ p ∈ r, p.1 ∈ dps ∧ p.2.Live dps := by
  cases dps with
  | nil => exact ⟨none, rfl, nofun⟩
  | cons first rest =>
    have hbehind (dp : ℕ) : (Cursor.first ((first :: rest).dropWhile (· ≠ dp)).tail).Live
        (first :: rest) :=
      Cursor.live_first ((tail_sublist _).trans (dropWhile_sublist _)).subset
    cases dpi with
    | stop => exact ⟨_, rfl, fun p hp => Option.some.inj hp ▸ ⟨mem_cons_self, hbehind first⟩⟩
    | entry dp => exact ⟨_, rfl, fun p hp => Option.some.inj hp ▸ ⟨h, hbehind dp⟩⟩
    | lost => exact h.elim

theorem exists_change {reason : Reason} {port : Port} {ports : List Port}
    (h : reason = .add ∨ ∃ p ∈ ports, p.portNo = port.portNo) :
    ∃ ports', reason.change port ports = some ports' := by
  rcases h with rfl | ⟨p, hp, hno⟩
  · exact ⟨_, rfl⟩
  obtain ⟨j, hj⟩ : ∃ j, ports.findIdx? (·.portNo = port.portNo) = some j := by
    rw [← Option.isSome_iff_exists, findIdx?_isSome]
    exact any_eq_true.2 ⟨p, hp, decide_eq_true hno⟩
  unfold Reason.change
  rw [hj]
  cases reason <;> exact ⟨_, rfl⟩

variable {s : Table} {c : Call}

/-- One call keeps the cursors live and the table as it should be. -/
theorem call_spec (hs : ∀ who, (s.dpi who).Live s.dps) (hc : s.Heeds c) :
    ∃ t, s.call c = some t ∧ (∀ who, (t.dpi who).Live t.dps) ∧ t.lookup = track s.lookup c := by
  cases c with
  | join dp ports place rehash =>
    refine ⟨_, rfl, ?_⟩
    by_cases hdp : dp ∈ s.dps
    · rw [Table.handleDpJoin, if_pos hdp]
      exact ⟨hs, by simp [track, Table.lookup, hdp]⟩
    have hmem (d : ℕ) : d ∈ s.dps.take place ++ dp :: s.dps.drop place ↔ d = dp ∨ d ∈ s.dps := by
      rw [perm_middle.mem_iff, mem_cons, take_append_drop]
    rw [Table.handleDpJoin, if_neg hdp, hc.resolve_left hdp]
    refine ⟨fun who => (hs who).mono fun d hd _ => (hmem d).2 (.inr hd), funext fun d => ?_⟩
    by_cases hd : d = dp <;> simp [track, Table.lookup, hmem, hd, hdp]
  | leave dp =>
    refine ⟨_, rfl, fun who => ?_, funext fun d => ?_⟩
    · have hdpi : (s.handleDpLeave dp).dpi who = s.dpi who := if_neg (hc who)
      rw [hdpi]
      refine (hs who).mono fun d hd hdpi => mem_filter.2 ⟨hd, decide_eq_true ?_⟩
      exact fun heq => hc who (heq ▸ hdpi)
    · by_cases hd : d = dp <;> simp [track, Table.lookup, Table.handleDpLeave, hd]
  | portStatus dp reason port =>
    change ∃ t, s.handlePortEvent dp reason port = some t ∧ _
    unfold Table.handlePortEvent
    by_cases hdp : dp ∈ s.dps
    · obtain ⟨ports, hports⟩ := exists_change (hc.resolve_left (not_not_intro hdp))
      rw [if_neg (not_not_intro hdp), hports]
      refine ⟨_, rfl, hs, funext fun d => ?_⟩
      by_cases hd : d = dp <;> simp [track, Table.lookup, hd, hdp, hports]
    · exact ⟨s, if_pos hdp, hs, by simp [track, Table.lookup, hdp]⟩
  | linkSpeed dp port =>
    exact ⟨s, by simp [Table.call, Table.getLinkSpeed, show dp ∈ s.dps from hc], hs, rfl⟩
  | probe who =>
    obtain ⟨r, hr, hlive⟩ := probe_spec (hs who)
    simp only [Table.call, hr]
    cases r with
    | none => exact ⟨s, rfl, hs, rfl⟩
    | some p =>
      refine ⟨_, rfl, fun w => ?_, rfl⟩
      by_cases hw : w = who
      · subst hw
        simpa using (hlive p rfl).2
      · simpa [hw] using hs w

/-- **The cursors stay live**, and every probe goes to a datapath that has joined.  At the start
they are where `install` has put them, or anywhere in the table. -/
theorem cursors_live {calls : List Call} (hs : ∀ who, (s.dpi who).Live s.dps)
    (h : Along Table.call Table.Heeds s calls) :
    ∃ t, run Table.call s calls = some t ∧
      (∀ who, (t.dpi who).Live t.dps ∧
        ∃ r, probe t.dps (t.dpi who) = some r ∧ ∀ p ∈ r, p.1 ∈ t.dps) ∧
      t.lookup = calls.foldl track s.lookup := by
  induction calls generalizing s with
  | nil =>
    refine ⟨s, rfl, fun who => ⟨hs who, ?_⟩, rfl⟩
    obtain ⟨r, hr, hp⟩ := probe_spec (hs who)
    exact ⟨r, hr, fun p h => (hp p h).1⟩
  | cons c calls ih =>
    obtain ⟨t, ht, hlive, hlookup⟩ := call_spec hs h.1
    obtain ⟨u, hu, hlive, htrack⟩ := ih hlive (h.2 t ht)
    exact ⟨u, run_cons_eq_some.2 ⟨t, ht, hu⟩, hlive, by rw [htrack, hlookup, foldl_cons]⟩

/-- Two datapaths join, one has a port changed and one leaves, with probes between. -/
def visits : List Call :=
  [.join 1 [⟨7, 10⟩] 0 false, .join 2 [] 1 false, .probe .linkload, .portStatus 1 .modify ⟨7, 40⟩,
    .linkSpeed 1 7, .probe .linkload, .leave 2, .portStatus 1 .add ⟨8, 10⟩, .probe .switchrtt]

theorem cursors_live_visits :
    ∃ t, run Table.call (.install [] fun _ => []) visits = some t ∧
      t.lookup 1 = some [⟨7, 40⟩, ⟨8, 10⟩] ∧ t.lookup 2 = none := by
  have hheeds : Along Table.call Table.Heeds (.install [] fun _ => []) visits :=
    .cons (.inr rfl) rfl <| .cons (.inr rfl) rfl <| .cons trivial rfl <|
      .cons (.inr (.inr ⟨⟨7, 10⟩, mem_singleton_self _, rfl⟩)) rfl <| .cons mem_cons_self rfl <|
      .cons trivial rfl <| .cons (by rintro (_ | _) <;> nofun) rfl <| .cons (.inr (.inl rfl)) rfl <|
      .cons trivial rfl trivial
  obtain ⟨t, hrun, -, hlookup⟩ := cursors_live (s := .install [] fun _ => [])
    (fun _ => Cursor.live_first (Subset.refl [])) hheeds
  exact ⟨t, hrun, by rw [hlookup]; rfl, by rw [hlookup]; rfl⟩

/-- A datapath leaves that a cursor is at, or the map is rehashed; a port that is not there is
deleted; and the speed of a link is asked for where no datapath is. -/
theorem cursors_lost :
    [[Call.leave 1, .probe .linkload], [.join 3 [] 0 true, .probe .switchrtt],
      [.portStatus 1 .delete ⟨7, 10⟩], [.linkSpeed 3 7]].all
        fun calls => (run Table.call (.install [1, 2] fun _ => []) calls).isNone := by
  decide

end NoxClassic.NetworkState
