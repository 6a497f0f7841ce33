/-
# The port count of the spanning tree component

`spanning_tree.py`, `dp_join`, `dp_leave`, `handle_port_status` and
`update_lldp_send_period`.  The component counts the ports it has recorded, and
from the count it computes the period in which discovery sends.  A handler that
raises an exception is `none`: for a new port up to `OFPP_MAX` the name `dp` is
not defined in `handle_port_status`, and an unknown switch is a `KeyError`.  The
port modifications that are sent are left out.
-/

import NoxClassic.Lib.Run
import NoxClassic.SpanningTree.Model
import Mathlib.Algebra.Order.Field.Rat

namespace NoxClassic
namespace Lib.OrdMap

variable {κ ν : Type*} [LinearOrder κ] {m m' : OrdMap κ ν} {k : κ} {v : ν}

/-- A map with one key more has one entry more. -/
theorem entries_perm_cons (hk : m'.find? k = none)
    (h : ∀ l, m.find? l = if l = k then some v else m'.find? l) :
    m.entries.Perm ((k, v) :: m'.entries) := by
  have hnodup : ∀ m : OrdMap κ ν, m.entries.Nodup := fun m => m.nodup_keys.of_map
  have hnot : (k, v) ∉ m'.entries := fun hmem => by simp [find?_eq_some_iff.2 hmem] at hk
  refine (List.perm_ext_iff_of_nodup (hnodup m) (List.nodup_cons.2 ⟨hnot, hnodup m'⟩)).2 ?_
  rintro ⟨l, u⟩
  rw [← find?_eq_some_iff, h, List.mem_cons, ← find?_eq_some_iff]
  by_cases hl : l = k
  · subst hl
    simp [hk, eq_comm]
  · simp [hl]

theorem entries_perm_erase (h : m.find? k = some v) :
    m.entries.Perm ((k, v) :: (m.erase k).entries) :=
  entries_perm_cons (by rw [find?_erase, if_pos rfl]) fun l => by
    rw [find?_erase]
    split_ifs with hl
    · rw [hl, h]
    · rfl

end Lib.OrdMap

namespace SpanningTree

open Lib (OrdMap)
open Option (map_eq_some_iff)

/-- `FLOOD_WAIT_TIME`. -/
def floodWaitTime : ℕ := 10

/-- `MIN_LLDP_SEND_PERIOD`. -/
def minLldpSendPeriod : ℚ := 5 / 100

/-- The period that `update_lldp_send_period` sets. -/
def lldpSendPeriod (portCount : ℤ) : ℚ :=
  if portCount = 0 then minLldpSendPeriod
  else min minLldpSendPeriod (floodWaitTime / 2 / portCount)

/-- What the handlers change. -/
structure Ports where
  datapaths : Datapaths
  portCount : ℤ
  period : ℚ

/-- The reason of a port status. -/
inductive Reason
  | add
  | delete
  | modify

/-- The events, with the time where a handler asks for it. -/
inductive Event
  | join (dp : DPID) (ports : List (PortNo × Port)) (now : ℕ)
  | leave (dp : DPID)
  | portStatus (dpid : DPID) (reason : Reason) (portNo : PortNo) (port : Port)

/-- The dictionary that `dp_join` builds. -/
def joinPorts (ports : List (PortNo × Port)) (now : ℕ) : OrdMap PortNo Port :=
  ports.foldl (fun m p => m.insert p.1 (if p.1 ≤ ofppMax then
    { p.2 with enableTime := some (now + floodWaitTime), flood := some false } else p.2))
    OrdMap.empty

/-- The handlers. -/
def Ports.step (s : Ports) : Event → Option Ports
  | .join dp ports now =>
    if (s.datapaths.find? dp).isSome then some s
    else
      let ports := joinPorts ports now
      let portCount := s.portCount + ports.entries.length
      some ⟨s.datapaths.insert dp ports, portCount, lldpSendPeriod portCount⟩
  | .leave dp =>
    match s.datapaths.find? dp with
    | none => some s
    | some ports => some { s with
        datapaths := s.datapaths.erase dp, portCount := s.portCount - ports.entries.length }
  | .portStatus dpid .add portNo port =>
    if portNo ≤ ofppMax then none
    else (s.datapaths.find? dpid).map fun ports => { s with
      datapaths := s.datapaths.insert dpid (ports.insert portNo port)
      portCount := s.portCount + 1 }
  | .portStatus dpid .delete portNo _ =>
    (s.datapaths.find? dpid).map fun ports =>
      if (ports.find? portNo).isSome then { s with
        datapaths := s.datapaths.insert dpid (ports.erase portNo), portCount := s.portCount + 1 }
      else s
  | .portStatus _ .modify _ _ => some s

/-- The component before any event. -/
def Ports.initial : Ports := ⟨OrdMap.empty, 0, minLldpSendPeriod⟩

/-- The number of ports recorded in `self.datapaths`. -/
def Datapaths.total (dps : Datapaths) : ℕ := (dps.entries.map fun e => e.2.entries.length).sum

variable {dps : Datapaths} {dpid : DPID} {ports : OrdMap PortNo Port} {s s' : Ports}

theorem Datapaths.total_erase (h : dps.find? dpid = some ports) :
    dps.total = ports.entries.length + Datapaths.total (dps.erase dpid) :=
  ((OrdMap.entries_perm_erase h).map _).sum_nat

theorem Datapaths.total_insert (dps : Datapaths) (dpid : DPID) (ports : OrdMap PortNo Port) :
    Datapaths.total (dps.insert dpid ports) =
      ports.entries.length + Datapaths.total (dps.erase dpid) :=
  ((OrdMap.entries_perm_cons (by rw [OrdMap.find?_erase, if_pos rfl]) fun l => by
    rw [OrdMap.find?_insert, OrdMap.find?_erase]
    split <;> rfl).map _).sum_nat

theorem Datapaths.total_insert_new (h : dps.find? dpid = none) :
    Datapaths.total (dps.insert dpid ports) = ports.entries.length + dps.total :=
  ((OrdMap.entries_perm_cons h fun _ => OrdMap.find?_insert ..).map _).sum_nat

/-- No port that is recorded is deleted, or added once more. -/
def Ports.counts (s : Ports) : Event → Bool
  | .portStatus dpid .add portNo _ | .portStatus dpid .delete portNo _ =>
    (s.datapaths.port dpid portNo).isNone
  | _ => true

/-- The count is that of the ports recorded. -/
theorem Ports.step_total (hinv : s.portCount = s.datapaths.total) {e : Event}
    (hc : s.counts e = true) (hstep : s.step e = some s') :
    s'.portCount = s'.datapaths.total := by
  cases e with
  | join dp ports now =>
    simp only [step] at hstep
    split at hstep <;> cases hstep
    · exact hinv
    rename_i hnone
    have : Datapaths.total (s.datapaths.insert dp (joinPorts ports now)) = _ :=
      Datapaths.total_insert_new (Option.not_isSome_iff_eq_none.1 hnone)
    show s.portCount + (joinPorts ports now).entries.length =
      (Datapaths.total (s.datapaths.insert dp (joinPorts ports now)) : ℤ)
    omega
  | leave dp =>
    simp only [step] at hstep
    split at hstep <;> cases hstep
    · exact hinv
    · rename_i ports hp
      have := Datapaths.total_erase hp
      show s.portCount - ports.entries.length = Datapaths.total (s.datapaths.erase dp)
      omega
  | portStatus dpid reason portNo port =>
    cases reason with
    | add =>
      simp only [step] at hstep
      split at hstep
      · cases hstep
      obtain ⟨ports, hp, rfl⟩ := map_eq_some_iff.1 hstep
      have hnew : ports.find? portNo = none := by
        simpa [counts, Datapaths.port, hp] using hc
      have h1 := Datapaths.total_erase hp
      have h2 := s.datapaths.total_insert dpid (ports.insert portNo port)
      have h3 := (OrdMap.entries_perm_cons hnew fun _ =>
        OrdMap.find?_insert (v := port) ..).length_eq
      rw [List.length_cons] at h3
      show s.portCount + 1 = Datapaths.total (s.datapaths.insert dpid (ports.insert portNo port))
      omega
    | delete =>
      obtain ⟨ports, hp, rfl⟩ := map_eq_some_iff.1 hstep
      have hnew : ports.find? portNo = none := by
        simpa [counts, Datapaths.port, hp] using hc
      rw [hnew]
      exact hinv
    | modify =>
      cases hstep
      exact hinv

/-- **`port_count` is the number of the ports recorded**, and so is the count a new period is
computed from, after every run in which no recorded port is deleted or added once more. -/
theorem port_count_total (events : List Event) (s : Ports)
    (hrun : Lib.run Ports.step Ports.initial events = some s)
    (hC : Lib.Along Ports.step (fun s e => s.counts e = true) Ports.initial events) :
    s.portCount = s.datapaths.total ∧
      ∀ dp ports now s', s.datapaths.find? dp = none → s.step (.join dp ports now) = some s' →
        s'.period = lldpSendPeriod s'.datapaths.total := by
  have hinv : s.portCount = s.datapaths.total :=
    Lib.run_invariant_of_along (I := fun s => s.portCount = s.datapaths.total)
      (fun _ _ _ hinv hc hstep => Ports.step_total hinv hc hstep) rfl hC hrun
  refine ⟨hinv, fun dp ports now s' hnew hstep => ?_⟩
  rw [← Ports.step_total (e := .join dp ports now) hinv rfl hstep]
  rw [Ports.step, hnew] at hstep
  cases hstep
  rfl

/-- A port as the switch reports it. -/
def reported : Port := ⟨none, none, none, false, false⟩

/-- A switch with three ports joins, and another one leaves. -/
def threePorts : List Event :=
  [.join 1 [(1, reported), (2, reported), (3, reported)] 0, .join 2 [(1, reported)] 0, .leave 2]

/-- The hypotheses of `port_count_total` are satisfiable. -/
theorem port_count_total_three :
    ∃ s, Lib.run Ports.step Ports.initial threePorts = some s ∧ s.portCount = 3 ∧
      s.portCount = s.datapaths.total :=
  ⟨_, rfl, rfl, (port_count_total threePorts _ rfl (by decide +kernel)).1⟩

/-- **A deleted port is counted once more**: `handle_port_status` adds one where `dp_leave`
subtracts. -/
theorem deleted_port_counted :
    ∃ s, Lib.run Ports.step Ports.initial [.join 1 [(1, reported)] 0,
      .portStatus 1 .delete 1 reported] = some s ∧ s.portCount = 2 ∧ s.datapaths.total = 0 :=
  ⟨_, rfl, rfl, by decide +kernel⟩

end SpanningTree
end NoxClassic
