/-
# The flood ports of the switches

`src/nox/netapps/spanning_tree/spanning_tree.py`.  Every few seconds
`update_spanning_tree_callback` is given all links that discovery has seen, one
tuple for each direction, and decides which ports of the switches may flood: those
that lead to no other switch, and those of a spanning forest of the links.

A dictionary is an `OrdMap`; where the code goes through the keys of one, or the
elements of a set, the order is whatever Python takes, and is a parameter
(`Orders`).  An access that raises a `KeyError` is `none`.  Inside a `try` the
statements before it have taken effect.  Times are natural numbers, as they are
only compared.  The message to the GUI is left out.
-/

import NoxClassic.Lib.OrdMap
import Mathlib.Data.Finset.Card
import Mathlib.Order.Fin.Basic

namespace NoxClassic.SpanningTree

open Lib (OrdMap)

/-- A datapath id. -/
abbrev DPID := ℕ

/-- `port_no`; numbers from `2^15` on come out of the C++ side as negative ones. -/
abbrev PortNo := ℤ

/-- `openflow.OFPP_MAX`. -/
def ofppMax : PortNo := 0xff00

/-- The dictionary of a port, with the keys the callback reads.  It sets `enable` and `keep` on
every port before it reads them. -/
structure Port where
  speed : Option ℕ
  enableTime : Option ℕ
  flood : Option Bool
  enable : Bool
  keep : Bool
  deriving DecidableEq

/-- `port['enable'] = False`. -/
def Port.disable (port : Port) : Port := { port with enable := false }

/-- `port['keep'] = True`. -/
def Port.setKeep (port : Port) : Port := { port with keep := true }

/-- `if not port['keep']: port['enable'] = False`. -/
def Port.disableUnkept (port : Port) : Port := if port.keep then port else port.disable

/-- `self.datapaths`. -/
abbrev Datapaths := OrdMap DPID (OrdMap PortNo Port)

/-- `self.datapaths[dpid][port_no]`. -/
def Datapaths.port (dps : Datapaths) (dpid : DPID) (portNo : PortNo) : Option Port :=
  (dps.find? dpid).bind fun ports => ports.find? portNo

/-- An assignment to a key of `self.datapaths[dpid][port_no]`. -/
def Datapaths.modify (dps : Datapaths) (dpid : DPID) (portNo : PortNo) (f : Port → Port) :
    Option Datapaths :=
  (dps.find? dpid).bind fun ports =>
    (ports.find? portNo).map fun port => dps.insert dpid (ports.insert portNo (f port))

/-- The order in which Python goes through the elements of a set. -/
structure SetOrder (α : Type) [DecidableEq α] where
  iter : Finset α → List α
  nodup : ∀ s, (iter s).Nodup
  mem_iter : ∀ s a, a ∈ iter s ↔ a ∈ s

/-- The orders for the pairs of ports of a link and for the keys of a dictionary of switches. -/
structure Orders where
  pairs : SetOrder (PortNo × PortNo)
  dpids : SetOrder DPID

/-- A link tuple. -/
structure Link where
  srcDpid : DPID
  srcPort : PortNo
  dstDpid : DPID
  dstPort : PortNo
  deriving DecidableEq

/-- `my_links`: for a source and a destination, the pairs of ports. -/
abbrev Links := OrdMap DPID (OrdMap DPID (Finset (PortNo × PortNo)))

/-- `links[src_dpid][dst_dpid]`. -/
def Links.pairs (links : Links) (src dst : DPID) : Option (Finset (PortNo × PortNo)) :=
  (links.find? src).bind fun dsts => dsts.find? dst

/-! ### Links -/

/-- The part of `build_link_dict` that tracks a link. -/
def Links.track (links : Links) (l : Link) : Links :=
  let dsts := (links.find? l.srcDpid).getD OrdMap.empty
  let pairs := (dsts.find? l.dstDpid).getD ∅
  links.insert l.srcDpid (dsts.insert l.dstDpid (insert (l.srcPort, l.dstPort) pairs))

/-- `self.datapaths[dpid][port_no]['enable']`, and no `KeyError`. -/
def Datapaths.enabled (dps : Datapaths) (dpid : DPID) (portNo : PortNo) : Bool :=
  (dps.port dpid portNo).any Port.enable

/-- `build_link_dict`. -/
def buildLinkDict (dps : Datapaths) (links : List Link) : Links :=
  links.foldl (fun myLinks l =>
    if dps.enabled l.srcDpid l.srcPort && dps.enabled l.dstDpid l.dstPort then myLinks.track l
    else myLinks) OrdMap.empty

/-- `(dst_port, src_port) in links[dst_dpid][src_dpid]`, and no `KeyError`. -/
def Links.isBidir (links : Links) (src dst : DPID) (pair : PortNo × PortNo) : Bool :=
  (links.pairs dst src).any fun pairs => pair.swap ∈ pairs

/-- One end of a unidirectional link is disabled. -/
def Datapaths.disableOneWay (dps : Datapaths) (src dst : DPID) (pair : PortNo × PortNo) :
    Option Datapaths :=
  (if src ≤ dst then dps.modify dst pair.2 Port.disable
    else dps.modify src pair.1 Port.disable).or (dps.modify src pair.1 Port.disable)

/-- The body of the loop of `verify_bidir_links` that works out `ports_to_delete`. -/
def checkPair (links : Links) (src dst : DPID) (acc : List (PortNo × PortNo) × Datapaths)
    (pair : PortNo × PortNo) : Option (List (PortNo × PortNo) × Datapaths) :=
  if links.isBidir src dst pair then some acc
  else (acc.2.disableOneWay src dst pair).map fun dps => (acc.1 ++ [pair], dps)

/-- That loop. -/
def findOneWay (order : Orders) (links : Links) (src dst : DPID) (dps : Datapaths) :
    Option (List (PortNo × PortNo) × Datapaths) :=
  (links.pairs src dst).bind fun pairs =>
    (order.pairs.iter pairs).foldlM (checkPair links src dst) ([], dps)

/-- `links[src_dpid][dst_dpid].discard(ports)`, and the check whether any is left. -/
def discardPair (src dst : DPID) (acc : Links × List DPID) (pair : PortNo × PortNo) :
    Option (Links × List DPID) :=
  (acc.1.find? src).bind fun dsts =>
    (dsts.find? dst).map fun pairs =>
      let pairs := pairs.erase pair
      (acc.1.insert src (dsts.insert dst pairs),
        if pairs.card = 0 then acc.2 ++ [dst] else acc.2)

/-- The body of the loop over the destinations in `verify_bidir_links`. -/
def verifyDst (order : Orders) (src : DPID) (acc : Links × Datapaths × List DPID) (dst : DPID) :
    Option (Links × Datapaths × List DPID) :=
  (findOneWay order acc.1 src dst acc.2.1).bind fun found =>
    (found.1.foldlM (discardPair src dst) (acc.1, acc.2.2)).map fun r => (r.1, found.2, r.2)

/-- `del links[src_dpid][dst_dpid]`, and the check whether any is left. -/
def deleteDst (src : DPID) (acc : Links × List DPID) (dst : DPID) : Option (Links × List DPID) :=
  (acc.1.find? src).bind fun dsts =>
    (dsts.find? dst).map fun _ =>
      let dsts := dsts.erase dst
      (acc.1.insert src dsts, if dsts.isEmpty then acc.2 ++ [src] else acc.2)

/-- The body of the loop over the sources in `verify_bidir_links`. -/
def verifySrc (order : Orders) (acc : Links × Datapaths × List DPID) (src : DPID) :
    Option (Links × Datapaths × List DPID) :=
  (acc.1.find? src).bind fun dsts =>
    ((order.dpids.iter dsts.keys.toFinset).foldlM (verifyDst order src)
        (acc.1, acc.2.1, [])).bind fun r =>
      (r.2.2.foldlM (deleteDst src) (r.1, acc.2.2)).map fun d => (d.1, r.2.1, d.2)

/-- `del links[src_dpid]`. -/
def deleteSrc (links : Links) (src : DPID) : Option Links :=
  (links.find? src).map fun _ => links.erase src

/-- `verify_bidir_links`. -/
def verifyBidirLinks (order : Orders) (links : Links) (dps : Datapaths) :
    Option (Links × Datapaths) :=
  ((order.dpids.iter links.keys.toFinset).foldlM (verifySrc order) (links, dps, [])).bind fun r =>
    (r.2.2.foldlM deleteSrc r.1).map fun links => (links, r.2.1)

/-! ### The traversal -/

/-- The body of the loop that looks for the fastest link to another switch. -/
def Datapaths.faster (dps : Datapaths) (src : DPID) (best : ℤ × (PortNo × PortNo))
    (pair : PortNo × PortNo) : ℤ × (PortNo × PortNo) :=
  match (dps.port src pair.1).bind Port.speed with
  | some speed => if (speed : ℤ) > best.1 then (speed, pair) else best
  | none => best

/-- `best_speed` and `best_pair` after that loop. -/
def Datapaths.fastest (dps : Datapaths) (src : DPID) (pairs : List (PortNo × PortNo)) :
    ℤ × (PortNo × PortNo) :=
  pairs.foldl (dps.faster src) (-1, (-1, -1))

/-- The body of the loop that disables all links but the fastest. -/
def Datapaths.keepPair (src dst : DPID) (best : PortNo × PortNo) (dps : Datapaths)
    (pair : PortNo × PortNo) : Datapaths :=
  if pair ≠ best then (dps.modify dst pair.2 Port.disable).getD dps
  else
    match dps.modify src pair.1 Port.setKeep with
    | none => dps
    | some dps => (dps.modify dst pair.2 Port.setKeep).getD dps

/-- The body of the loop that disables the links between two switches that have been seen. -/
def Datapaths.disablePair (src dst : DPID) (dps : Datapaths) (pair : PortNo × PortNo) : Datapaths :=
  let ports := if src = dst ∧ pair.1 > pair.2 then pair.swap else pair
  match dps.modify dst ports.2 Port.disableUnkept with
  | none => dps
  | some dps => (dps.modify src ports.1 Port.disableUnkept).getD dps

/-- The links to a switch that has been seen are disabled, from the side of the lower id. -/
def Datapaths.disableSeen (order : Orders) (links : Links) (dps : Datapaths) (src dst : DPID) :
    Option Datapaths :=
  let locals := if src ≤ dst then (src, dst) else (dst, src)
  (links.pairs locals.1 locals.2).map fun pairs =>
    (order.pairs.iter pairs).foldl (Datapaths.disablePair locals.1 locals.2) dps

/-- The state of the loop over the destinations of a source. -/
structure Visit where
  datapaths : Datapaths
  seen : Finset DPID
  nextDpids : List DPID

/-- The body of that loop. -/
def visitDst (order : Orders) (links : Links) (src : DPID) (v : Visit) (dst : DPID) :
    Option Visit :=
  if dst ∉ v.seen then
    (links.pairs src dst).map fun pairs =>
      let pairs := order.pairs.iter pairs
      { datapaths := pairs.foldl (Datapaths.keepPair src dst (v.datapaths.fastest src pairs).2)
          v.datapaths
        seen := insert dst v.seen
        nextDpids := v.nextDpids ++ [dst] }
  else (v.datapaths.disableSeen order links src dst).map fun datapaths => { v with datapaths }

/-- The state of the loop over the sources. -/
structure Traversal where
  srcs : List DPID
  seen : Finset DPID
  roots : Finset DPID
  datapaths : Datapaths

/-- The body of that loop, for the source `src` taken from the end of `t.srcs ++ [src]`. -/
def visitSrc (order : Orders) (links : Links) (t : Traversal) (src : DPID) : Option Traversal :=
  let roots := if src ∉ t.seen then insert src t.roots else t.roots
  let seen := insert src t.seen
  match links.find? src with
  | none => some { t with seen, roots }
  | some dsts =>
    (dsts.keys.foldlM (visitDst order links src) ⟨t.datapaths, seen, []⟩).map fun v =>
      { srcs := v.nextDpids.reverse.foldl List.erase t.srcs ++ v.nextDpids.reverse
        seen := v.seen
        roots
        datapaths := v.datapaths }

/-- The loop over the sources, for at most `fuel` of them. -/
def traverse (order : Orders) (links : Links) : ℕ → Traversal → Option Traversal
  | 0, t => if t.srcs.isEmpty then some t else none
  | fuel + 1, t =>
    match t.srcs.getLast? with
    | none => some t
    | some src =>
      (visitSrc order links { t with srcs := t.srcs.dropLast } src).bind
        (traverse order links fuel)

/-! ### The callback -/

/-- A port is marked as enabled if it is past its hold time. -/
def Port.mark (now : ℕ) (portNo : PortNo) (port : Port) : Option Port :=
  if portNo > ofppMax then some { port with enable := true, keep := false }
  else port.enableTime.map fun time => { port with enable := decide (now > time), keep := false }

/-- A port is made to flood or not, as it is enabled. -/
def Port.update (portNo : PortNo) (port : Port) : Option Port :=
  if portNo ≤ ofppMax then
    port.flood.map fun flood => { port with flood := if port.enable ≠ flood then !flood else flood }
  else some port

/-- `send_port_mod`: the port is to flood, or not. -/
structure PortMod where
  dpid : DPID
  portNo : PortNo
  flood : Bool
  deriving DecidableEq

/-- The messages to the switches. -/
def Datapaths.portMods (dps : Datapaths) : List PortMod :=
  dps.entries.flatMap fun dp => dp.2.entries.filterMap fun p =>
    if p.1 ≤ ofppMax ∧ p.2.flood ≠ some p.2.enable then some ⟨dp.1, p.1, p.2.enable⟩ else none

/-- What the callback leaves and sends. -/
structure Update where
  datapaths : Datapaths
  roots : Finset DPID
  portMods : List PortMod

/-- `update_spanning_tree_callback`. -/
def updateSpanningTreeCallback (order : Orders) (now : ℕ) (links : List Link) (dps : Datapaths) :
    Option Update :=
  (dps.traverse fun _ ports => ports.traverse (Port.mark now)).bind fun dps =>
    (verifyBidirLinks order (buildLinkDict dps links) dps).bind fun verified =>
      let srcs := verified.2.keys.reverse
      (traverse order verified.1 srcs.length ⟨srcs, ∅, ∅, verified.2⟩).bind fun t =>
        (t.datapaths.traverse fun _ ports => ports.traverse Port.update).map fun dps =>
          ⟨dps, t.roots, t.datapaths.portMods⟩

end NoxClassic.SpanningTree
