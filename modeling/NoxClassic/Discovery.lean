/-
# Link discovery

`nox/netapps/discovery/discovery.py`: the links between switches, as the LLDP packets
show them that one switch sent and another received.  Three handlers change the
list of links and post an event for each change.  `Inv` ties the events posted for a
link to whether it is listed; the calls to the binding storage and to the user event
log are left out, and the clock is whatever each call reads.
-/

import Mathlib.Data.List.AList
import Mathlib.Data.Rat.Defs
import Mathlib.Data.Finset.Basic

namespace NoxClassic.Discovery

open List AList

/-- A TLV of an LLDP packet, as far as it is read. -/
structure Tlv where
  type : ℕ
  subtype : ℕ
  id : List UInt8

/-- A link: the datapath and port that received, and the ones that sent. -/
structure LinkTuple where
  dpId : ℤ
  inport : ℕ
  chassid : ℤ
  portid : ℕ
deriving DecidableEq

/-- `Link_event.ADD` and `Link_event.REMOVE`. -/
inductive Action where
  | add
  | remove
deriving DecidableEq

/-- What happened, the newest first: the events posted, and the LLDP packets that set the time
of a link. -/
inductive Event where
  | post (link : LinkTuple) (action : Action)
  | heard (link : LinkTuple) (time : ℚ)
deriving DecidableEq

/-- The component. -/
structure State where
  dps : Finset ℤ
  adjacencyList : AList fun _ : LinkTuple => ℚ
  log : List Event

/-- `LINK_TIMEOUT`. -/
def linkTimeout : ℚ := 10

/-- The component at first. -/
def State.init : State := ⟨∅, ∅, []⟩

namespace State

/-- `dp_join`. -/
def dpJoin (s : State) (dp : ℤ) : State := { s with dps := insert dp s.dps }

/-- A round of the loop of `delete_links`. -/
def deleteLink (s : State) (link : LinkTuple) : State :=
  { s with
    adjacencyList := s.adjacencyList.erase link
    log := .post link .remove :: s.log }

/-- The links that have the property `p`, collected and then given to `delete_links`. -/
def deleteLinks (s : State) (p : LinkTuple → Bool) : State :=
  (s.adjacencyList.keys.filter p).foldl deleteLink s

/-- `dp_leave`. -/
def dpLeave (s : State) (dp : ℤ) : State :=
  { s with dps := s.dps.erase dp }.deleteLinks fun link => link.dpId = dp || link.chassid = dp

/-- `timeout_links`. -/
def timeoutLinks (s : State) (curtime : ℚ) : State :=
  s.deleteLinks fun link => (s.adjacencyList.lookup link).any fun t => curtime - t > linkTimeout

/-- The checks of `lldp_input_handler`, with the link that is left; `int` reads a number in base
16, or throws. -/
def linkOf (int : List UInt8 → Option ℤ) (s : State) (dpId : ℤ) (inport : ℕ) :
    List Tlv → Option LinkTuple
  | chassis :: port :: ttl :: _ :: _ =>
    if chassis.type ≠ 1 ∨ port.type ≠ 2 ∨ ttl.type ≠ 3 then none
    else if chassis.subtype ≠ 7 then none
    else if chassis.id.take 5 ≠ "dpid:".toUTF8.toList then none
    else
      match int (chassis.id.drop 5), port.id with
      | some chassid, [hi, lo] =>
        let portid := hi.toNat * 256 + lo.toNat
        if chassid ∉ s.dps ∨ port.subtype ≠ 2 ∨ (dpId = chassid ∧ inport = portid) then none
        else some ⟨dpId, inport, chassid, portid⟩
      | _, _ => none
  | _ => none

/-- `lldp_input_handler`; `tlvs` is `none` when the packet was not parsed as LLDP. -/
def lldpInputHandler (int : List UInt8 → Option ℤ) (s : State) (dpId : ℤ) (inport : ℕ)
    (tlvs : Option (List Tlv)) (time : ℚ) : State :=
  match tlvs.bind (s.linkOf int dpId inport) with
  | none => s
  | some link =>
    let s := if link ∈ s.adjacencyList then s else { s with log := .post link .add :: s.log }
    { s with
      adjacencyList := s.adjacencyList.insert link time
      log := .heard link time :: s.log }

end State

/-- What the component is called for. -/
inductive Call where
  | join (dp : ℤ)
  | leave (dp : ℤ)
  | timeout (curtime : ℚ)
  | packetIn (dpId : ℤ) (inport : ℕ) (tlvs : Option (List Tlv)) (time : ℚ)

/-- One call. -/
def State.call (int : List UInt8 → Option ℤ) (s : State) : Call → State
  | .join dp => s.dpJoin dp
  | .leave dp => s.dpLeave dp
  | .timeout curtime => s.timeoutLinks curtime
  | .packetIn dpId inport tlvs time => s.lldpInputHandler int dpId inport tlvs time

/-- The actions posted for a link, the newest first. -/
def posted (link : LinkTuple) : List Event → List Action
  | [] => []
  | .post l action :: log => if l = link then action :: posted link log else posted link log
  | .heard _ _ :: log => posted link log

/-- The actions, the newest first, go up and down in turn from an `ADD` on. -/
def Alternate (actions : List Action) : Prop :=
  actions.IsChain (· ≠ ·) ∧ ∀ a ∈ actions.getLast?, a = .add

variable {int : List UInt8 → Option ℤ} {s : State} {link : LinkTuple}

/-- The links that are listed are those whose last event is an `ADD`, each with the time of a
packet that showed it. -/
structure Inv (s : State) : Prop where
  alternate : ∀ link, Alternate (posted link s.log)
  listed : ∀ link, link ∈ s.adjacencyList ↔ (posted link s.log).head? = some .add
  heard : ∀ link t, s.adjacencyList.lookup link = some t → .heard link t ∈ s.log

/-- An event that differs from the last one, and is not a `REMOVE` to begin with. -/
theorem Alternate.cons {a : Action} {l : List Action} (h : Alternate l) (hne : l.head? ≠ some a)
    (hnil : l = [] → a = .add) : Alternate (a :: l) := by
  cases l with
  | nil => exact ⟨List.IsChain.singleton a, by simpa using hnil rfl⟩
  | cons b l =>
    refine ⟨List.IsChain.cons_cons (fun hab => hne (by simp [hab])) h.1, ?_⟩
    simpa [getLast?_cons_cons] using h.2

theorem Inv.deleteLink (h : Inv s) (hlink : link ∈ s.adjacencyList) : Inv (s.deleteLink link) := by
  have hhead := (h.listed link).1 hlink
  refine ⟨fun l => ?_, fun l => ?_, fun l t ht => ?_⟩ <;> rcases eq_or_ne link l with rfl | hl
  · rw [State.deleteLink, posted, if_pos rfl]
    exact (h.alternate link).cons (by simp [hhead]) (fun hnil => by simp [hnil] at hhead)
  · simpa [State.deleteLink, posted, hl] using h.alternate l
  · simp [State.deleteLink, posted]
  · simp [State.deleteLink, posted, hl, hl.symm, h.listed l]
  · simp [State.deleteLink, lookup_erase] at ht
  · rw [State.deleteLink, lookup_erase_ne hl.symm] at ht
    exact mem_cons_of_mem _ (h.heard l t ht)

/-- **Deletion of the listed links with a property**: the others stay as they are. -/
theorem Inv.deleteLinks (h : Inv s) (p : LinkTuple → Bool) : Inv (s.deleteLinks p) ∧
    ∀ link t, (s.deleteLinks p).adjacencyList.lookup link = some t →
      s.adjacencyList.lookup link = some t ∧ p link = false := by
  have hloop (l : List LinkTuple) : ∀ s : State, Inv s → l.Nodup →
      (∀ link ∈ l, link ∈ s.adjacencyList) → Inv (l.foldl State.deleteLink s) ∧
        ∀ link t, (l.foldl State.deleteLink s).adjacencyList.lookup link = some t →
          s.adjacencyList.lookup link = some t ∧ link ∉ l := by
    induction l with
    | nil => exact fun s hs _ _ => ⟨hs, by simp⟩
    | cons a l ih =>
      intro s hs hnodup hmem
      obtain ⟨hnot, hnodup⟩ := nodup_cons.1 hnodup
      obtain ⟨hinv, hlook⟩ := ih (s.deleteLink a) (hs.deleteLink (hmem a mem_cons_self))
        hnodup fun b hb => by
          simp [State.deleteLink, hmem b (mem_cons_of_mem a hb), ne_of_mem_of_not_mem hb hnot]
      refine ⟨hinv, fun link t ht => ?_⟩
      obtain ⟨ht, hl⟩ := hlook link t ht
      rcases eq_or_ne link a with rfl | ha
      · simp [State.deleteLink, lookup_erase] at ht
      · rw [State.deleteLink, lookup_erase_ne ha] at ht
        exact ⟨ht, by simp [ha, hl]⟩
  obtain ⟨hinv, hlook⟩ := hloop (s.adjacencyList.keys.filter p) s h
    (s.adjacencyList.keys_nodup.filter p) fun link hl => (mem_filter.1 hl).1
  refine ⟨hinv, fun link t ht => ?_⟩
  obtain ⟨ht, hl⟩ := hlook link t ht
  have hmem : link ∈ s.adjacencyList.keys := lookup_isSome.1 (by simp [ht])
  exact ⟨ht, by simpa [mem_filter, hmem] using hl⟩

theorem Inv.lldpInputHandler (h : Inv s) (dpId : ℤ) (inport : ℕ) (tlvs : Option (List Tlv))
    (time : ℚ) : Inv (s.lldpInputHandler int dpId inport tlvs time) := by
  unfold State.lldpInputHandler
  split
  · exact h
  rename_i link _
  have hhead := h.listed link
  refine ⟨fun l => ?_, fun l => ?_, fun l t ht => ?_⟩ <;> rcases eq_or_ne link l with rfl | hl
  · split_ifs with hmem
    · exact h.alternate link
    · simp only [posted, if_pos]
      exact (h.alternate link).cons (fun hadd => hmem (hhead.2 hadd)) fun _ => rfl
  · split_ifs <;> simpa [posted, hl] using h.alternate l
  · split_ifs with hmem <;> simp [posted, ← hhead, hmem]
  · split_ifs <;> simp [posted, hl, hl.symm, h.listed l]
  · simp_all [lookup_insert]
  · rw [lookup_insert_ne hl.symm] at ht
    have := h.heard l t (by split_ifs at ht <;> exact ht)
    split_ifs <;> simp [this]

theorem Inv.call (h : Inv s) (c : Call) : Inv (s.call int c) := by
  cases c with
  | join dp => exact { h with }
  | leave dp =>
    have hleft : Inv { s with dps := s.dps.erase dp } := { h with }
    exact (hleft.deleteLinks _).1
  | timeout curtime => exact (h.deleteLinks _).1
  | packetIn dpId inport tlvs time => exact h.lldpInputHandler dpId inport tlvs time

/-- **Links are reported consistently.**  After any calls, the events posted for each link are
`ADD` and `REMOVE` in turn from an `ADD` on, and the links listed are those whose last event is
an `ADD`; right after `timeout_links` each of them was shown by a packet at most `LINK_TIMEOUT`
ago, and right after `dp_leave` none of them is of the datapath that left. -/
theorem links_consistent (int : List UInt8 → Option ℤ) (calls : List Call) :
    let s := calls.foldl (State.call int) .init
    (∀ link, Alternate (posted link s.log)) ∧
    (∀ link, link ∈ s.adjacencyList ↔ (posted link s.log).head? = some .add) ∧
    (∀ curtime, ∀ link ∈ (s.timeoutLinks curtime).adjacencyList,
      ∃ t, .heard link t ∈ s.log ∧ curtime - t ≤ linkTimeout) ∧
    ∀ dp, ∀ link ∈ (s.dpLeave dp).adjacencyList, link.dpId ≠ dp ∧ link.chassid ≠ dp := by
  intro s
  have h : Inv s := by
    refine foldlRecOn calls _ ⟨fun _ => ⟨List.IsChain.nil, nofun⟩, ?_, nofun⟩
      fun s hs c _ => hs.call c
    exact fun link => iff_of_false (notMem_empty link) nofun
  refine ⟨h.alternate, h.listed, fun curtime link hl => ?_, fun dp link hl => ?_⟩
  · obtain ⟨t, ht⟩ := Option.isSome_iff_exists.1 (lookup_isSome.2 hl)
    obtain ⟨ht, hp⟩ := (h.deleteLinks _).2 link t ht
    exact ⟨t, h.heard link t ht, Rat.not_lt.1 (by simpa [ht] using hp)⟩
  · obtain ⟨t, ht⟩ := Option.isSome_iff_exists.1 (lookup_isSome.2 hl)
    have hleft : Inv { s with dps := s.dps.erase dp } := { h with }
    simpa using ((hleft.deleteLinks _).2 link t ht).2

end NoxClassic.Discovery
