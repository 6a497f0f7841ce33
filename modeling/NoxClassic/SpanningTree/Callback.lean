/-
# The flood ports form a spanning forest

`update_spanning_tree_callback` as a whole, for switches all of whose ports have a
speed and are past their hold time, and links such that a port is on one physical
link.  Afterwards the links in both directions whose two ports are enabled form a
forest, which connects the switches that the links between recorded ports connect.

A port on no link is enabled afterwards whatever it was before, and a link through
a switch that has not joined connects nothing (`unjoined_switch_disconnects`).
-/

import NoxClassic.SpanningTree.Traversal
import Mathlib.Data.Finset.Sort

namespace NoxClassic.SpanningTree

open Option Datapaths

open Lib (OrdMap Explored)

/-- A port as `dp_join` leaves it, with a speed and past its hold time. -/
def Port.Ready (now : ℕ) (portNo : PortNo) (port : Port) : Prop :=
  port.speed.isSome ∧
    (portNo ≤ ofppMax → (port.enableTime.any fun time => time < now) ∧ port.flood.isSome)

instance (now : ℕ) (portNo : PortNo) (port : Port) : Decidable (port.Ready now portNo) :=
  inferInstanceAs (Decidable (_ ∧ _))

/-- All ports of the switches are ready. -/
def Joined (now : ℕ) (dps : Datapaths) : Prop :=
  ∀ dp ∈ dps.entries, ∀ p ∈ dp.2.entries, p.2.Ready now p.1

instance (now : ℕ) (dps : Datapaths) : Decidable (Joined now dps) :=
  inferInstanceAs (Decidable (∀ _ ∈ _, _))

/-- The links have a port in common. -/
def Link.Shares (l l' : Link) : Prop :=
  l.src = l'.src ∨ l.src = l'.dst ∨ l.dst = l'.src ∨ l.dst = l'.dst

instance (l l' : Link) : Decidable (l.Shares l') := inferInstanceAs (Decidable (_ ∨ _))

/-- A port is on one physical link only: what has a port in common is the same link, in one
direction or the other. -/
def OnePhysicalLink (links : List Link) : Prop :=
  ∀ l ∈ links, ∀ l' ∈ links, l.Shares l' → l' = l ∨ l' = l.reverse

instance (links : List Link) : Decidable (OnePhysicalLink links) :=
  inferInstanceAs (Decidable (∀ _ ∈ _, _))

/-- A link seen in both directions whose two ports are enabled. -/
def Live (links : List Link) (dps : Datapaths) (l : Link) : Prop :=
  l ∈ links ∧ l.reverse ∈ links ∧ dps.on l.src ∧ dps.on l.dst

/-- A link seen in both directions between two ports that are recorded. -/
def Bidir (links : List Link) (dps : Datapaths) (l : Link) : Prop :=
  l ∈ links ∧ l.reverse ∈ links ∧ dps.known l.src ∧ dps.known l.dst

/-- What the callback makes of the ports `dps`. -/
structure SpanningForest (links : List Link) (dps dps' : Datapaths) : Prop where
  no_self_link : ∀ l, Live links dps' l → l.srcDpid ≠ l.dstDpid
  one_link : ∀ l l', Live links dps' l → Live links dps' l' → l.srcDpid = l'.srcDpid →
    l.dstDpid = l'.dstDpid → l = l'
  acyclic : (linkGraph (Live links dps')).IsAcyclic
  reachable_iff : ∀ u v, (linkGraph (Live links dps')).Reachable u v ↔
    (linkGraph (Bidir links dps)).Reachable u v
  off_links : ∀ e, dps.known e → (∀ l ∈ links, e ≠ l.src ∧ e ≠ l.dst) → dps'.on e
  floods : ∀ d p port, p ≤ ofppMax → dps'.port d p = some port → port.flood = some port.enable

/-! ### The loops over all ports -/

section AllPorts

variable {dps dps' : Datapaths} {f : PortNo → Port → Option Port}

theorem Datapaths.mem_entries {d : DPID} {p : PortNo} {port : Port}
    (h : dps.port d p = some port) : ∃ dp ∈ dps.entries, (p, port) ∈ dp.2.entries := by
  obtain ⟨ports, hports, hport⟩ := bind_eq_some_iff.1 h
  exact ⟨(d, ports), OrdMap.find?_eq_some_iff.1 hports, OrdMap.find?_eq_some_iff.1 hport⟩

/-- A loop over all ports does not fail where its body does not. -/
theorem Datapaths.exists_traverse (dps : Datapaths) (f : PortNo → Port → Option Port)
    (h : ∀ d p port, dps.port d p = some port → ∃ port', f p port = some port') :
    ∃ dps', dps.traverse (fun _ ports => ports.traverse f) = some dps' := by
  refine OrdMap.traverse_isSome fun d ports hports =>
    OrdMap.traverse_isSome fun p port hport => h d p port ?_
  rw [Datapaths.port, hports, bind_some, hport]

/-- **A loop over all ports updates each of them.** -/
theorem Datapaths.port_traverse (h : dps.traverse (fun _ ports => ports.traverse f) = some dps')
    (d : DPID) (p : PortNo) : dps'.port d p = (dps.port d p).bind (f p) := by
  have hfind := OrdMap.find?_traverse h d
  unfold port
  rw [hfind]
  cases hports : dps.find? d with
  | none => rfl
  | some ports =>
    rw [hports, bind_some] at hfind
    -- the switch is there afterwards, so the loop over its ports has not failed
    have hmem : d ∈ dps'.keys := OrdMap.keys_traverse h ▸ OrdMap.mem_keys.2 ⟨ports, hports⟩
    obtain ⟨ports', hports'⟩ := OrdMap.mem_keys.1 hmem
    rw [hports'] at hfind
    rw [bind_some, bind_some, ← hfind, bind_some]
    exact OrdMap.find?_traverse hfind.symm p

end AllPorts

section Ready

variable {now : ℕ} {dps : Datapaths}

theorem Joined.ready (h : Joined now dps) {d : DPID} {p : PortNo} {port : Port}
    (hp : dps.port d p = some port) : port.Ready now p := by
  obtain ⟨dp, hdp, hmem⟩ := mem_entries hp
  exact h dp hdp (p, port) hmem

theorem Port.Ready.mark {p : PortNo} {port : Port} (h : port.Ready now p) :
    port.mark now p = some { port with enable := true, keep := false } := by
  unfold Port.mark
  split_ifs with hp
  · rfl
  · obtain ⟨time, htime, hlt⟩ := (any_eq_true _ _).1 (h.2 (not_lt.1 hp)).1
    rw [htime, map_some]
    have : decide (now > time) = true := hlt
    rw [this]

/-- All ports are marked as enabled, and none as kept. -/
structure Fresh (dps dps₁ : Datapaths) : Prop where
  same : SamePorts dps dps₁
  on_iff : ∀ e, dps₁.on e ↔ dps.known e
  not_kept : ∀ e, ¬ dps₁.kept e

/-- **The first loop enables all ports.** -/
theorem Joined.exists_mark (h : Joined now dps) :
    ∃ dps₁ : Datapaths, dps.traverse (fun _ ports => ports.traverse (Port.mark now)) = some dps₁ ∧
      Fresh dps dps₁ := by
  obtain ⟨dps₁, hdps1⟩ := exists_traverse dps (Port.mark now)
    fun d p port hp => ⟨_, (h.ready hp).mark⟩
  have hport : ∀ d p, port dps₁ d p =
      (dps.port d p).map fun port => { port with enable := true, keep := false } := by
    intro d p
    rw [port_traverse hdps1]
    cases hp : dps.port d p with
    | none => rfl
    | some port => exact (h.ready hp).mark
  refine ⟨dps₁, hdps1, ⟨fun d => ?_, fun d p => ?_⟩, fun e => ?_, fun e => ?_⟩
  · rw [Bool.eq_iff_iff, isSome_iff_exists, isSome_iff_exists, ← OrdMap.mem_keys,
      ← OrdMap.mem_keys, OrdMap.keys_traverse hdps1]
  · rw [hport, map_map]
    rfl
  · unfold known
    rw [on_iff, hport]
    simp
  · rw [kept_iff, hport]
    simp

end Ready

/-! ### The dictionary after `verify_bidir_links` -/

section Verified

variable {order : Orders} {now : ℕ} {links : List Link} {dps dps₁ dps₂ : Datapaths}
  {myLinks : Links} {off : End → Prop}

/-- What is recorded after `verify_bidir_links`. -/
structure Verified (links : List Link) (dps dps₂ : Datapaths) (myLinks : Links) : Prop where
  has_iff : ∀ l, myLinks.Has l ↔ Bidir links dps l
  filled : myLinks.Filled
  same : SamePorts dps dps₂
  not_kept : ∀ e, ¬ dps₂.kept e
  on : ∀ e, dps.known e →
    (∀ l ∈ links, l.reverse ∉ links → e ≠ l.src ∧ e ≠ l.dst) → dps₂.on e

/-- **The dictionary has the links in both directions**, and a port is still enabled unless it is
on another link. -/
theorem Fresh.exists_verify (h : Fresh dps dps₁) (order : Orders) (links : List Link) :
    ∃ myLinks dps₂, verifyBidirLinks order (buildLinkDict dps₁ links) dps₁ = some (myLinks, dps₂) ∧
      Verified links dps dps₂ myLinks := by
  obtain ⟨hbuild, hfilled⟩ := buildLinkDict_spec dps₁ links
  have hbuild : ∀ l, (buildLinkDict dps₁ links).Has l ↔
      l ∈ links ∧ dps.known l.src ∧ dps.known l.dst := by
    intro l
    rw [hbuild, h.on_iff, h.on_iff]
  have hknown : (buildLinkDict dps₁ links).Known dps₁ := by
    intro l hl
    rw [h.same.known_iff, h.same.known_iff]
    exact ((hbuild l).1 hl).2
  obtain ⟨myLinks, dps₂, hrun, hhas, hfilled, off, hm, hoff⟩ :=
    verifyBidirLinks_spec order hfilled hknown
  refine ⟨myLinks, dps₂, hrun, fun l => ?_, hfilled, h.same.trans hm.same, fun e => ?_,
    fun e he hl => ?_⟩
  · rw [hhas, hbuild, hbuild]
    constructor
    · exact fun hl => ⟨hl.1.1, hl.2.1, hl.1.2⟩
    · exact fun hl => ⟨⟨hl.1, hl.2.2⟩, hl.2.1, hl.2.2.2, hl.2.2.1⟩
  · rw [hm.kept_iff, or_iff_left id]
    exact h.not_kept e
  · rw [hm.on_iff, h.on_iff]
    refine ⟨he, fun ho => ?_⟩
    obtain ⟨l, hlinks, hrev, hend⟩ := hoff e ho
    rw [hbuild] at hlinks hrev
    obtain ⟨hs, hd⟩ := hl l hlinks.1 fun hmem => hrev ⟨hmem, hlinks.2.2, hlinks.2.1⟩
    exact hend.elim hs hd

variable {t : Traversal} {dps₃ : Datapaths}

/-- **When the stack is empty the live links are those that are kept.** -/
theorem Verified.live_iff (h : Verified links dps dps₂ myLinks) {T : SimpleGraph DPID}
    (hall : ∀ l, myLinks.Has l → l.srcDpid ∈ t.seen ∨ l.srcDpid ∈ t.srcs) (hsrcs : t.srcs = [])
    (hwr : Written myLinks dps₂ T t.seen (fun u _ => u ∈ t.seen ∧ u ∉ t.srcs) t.datapaths)
    (hon : ∀ e, dps₃.on e ↔ t.datapaths.on e) (l : Link) :
    Live links dps₃ l ↔ myLinks.Has l ∧ t.datapaths.kept l.src := by
  rw [hsrcs] at hall hwr
  unfold Live
  rw [hon, hon]
  constructor
  · rintro ⟨hl, hr, hs, hd⟩
    have hknown : ∀ e, t.datapaths.on e → dps.known e := fun e he => by
      obtain ⟨port, hport, -⟩ := on_iff.1 he
      exact (h.same.trans hwr.same).known_iff.1 ⟨port, hport⟩
    have hhas := (h.has_iff l).2 ⟨hl, hr, hknown _ hs, hknown _ hd⟩
    have hseen := (hall l hhas).resolve_right List.not_mem_nil
    exact ⟨hhas, hwr.settled l hhas ⟨hseen, List.not_mem_nil⟩ hs hd⟩
  · rintro ⟨hhas, hk⟩
    obtain ⟨hl, hr, -, -⟩ := (h.has_iff l).1 hhas
    exact ⟨hl, hr, hwr.kept_on _ hk, hwr.kept_on _ (hwr.kept_link l hhas hk).1⟩

variable (hphys : OnePhysicalLink links)

include hphys

theorem OnePhysicalLink.eq_or {l l' : Link} (hl : l ∈ links) (hl' : l' ∈ links) {e : End}
    (he : e = l.src ∨ e = l.dst) (he' : e = l'.src ∨ e = l'.dst) : l' = l ∨ l' = l.reverse := by
  refine hphys l hl l' hl' ?_
  unfold Link.Shares
  rcases he with rfl | rfl <;> rcases he' with h | h <;> simp [h]

section

variable (h : Verified links dps dps₂ myLinks)
include h

/-- The dictionary can be traversed. -/
theorem Verified.wired (hjoined : Joined now dps) :
    Wired myLinks dps₂ := by
  refine ⟨h.filled, fun l hl => ?_, fun l l' hl hl' he => ?_, fun l hl => ?_⟩
  · rw [h.has_iff] at hl ⊢
    exact ⟨hl.2.1, hl.1, hl.2.2.2, hl.2.2.1⟩
  · rw [h.has_iff] at hl hl'
    rcases hphys.eq_or hl.1 hl'.1 (.inl rfl) (.inl he) with heq | heq
    · exact heq.symm
    -- a link in the other direction that begins at the same port begins where it ends
    rw [heq] at he ⊢
    obtain ⟨a, p, b, q⟩ := l
    obtain rfl : a = b := congrArg Prod.fst he
    obtain rfl : p = q := congrArg Prod.snd he
    rfl
  · rw [h.has_iff] at hl
    obtain ⟨port, hport⟩ := hl.2.2.1
    obtain ⟨speed, hspeed⟩ := isSome_iff_exists.1 (hjoined.ready hport).1
    obtain ⟨port', hport', hfixed⟩ := h.same.port_some hport
    refine ⟨speed, ?_⟩
    show (dps₂.port l.src.1 l.src.2).bind Port.speed = some speed
    rw [hport', bind_some, ← hspeed]
    exact congrArg Prod.fst hfixed

/-- The ports of the links of the dictionary are enabled. -/
theorem Verified.on_ends {l : Link} (hl : myLinks.Has l) :
    dps₂.on l.src ∧ dps₂.on l.dst := by
  rw [h.has_iff] at hl
  obtain ⟨hlink, hrev, hs, hd⟩ := hl
  have hfree : ∀ e, e = l.src ∨ e = l.dst → ∀ m ∈ links, m.reverse ∉ links →
      e ≠ m.src ∧ e ≠ m.dst := by
    intro e he m hm hmr
    have hne : ¬ (e = m.src ∨ e = m.dst) := by
      intro he'
      rcases hphys.eq_or hlink hm he he' with rfl | rfl
      · exact hmr hrev
      · exact hmr hlink
    exact not_or.1 hne
  exact ⟨h.on _ hs (hfree _ (.inl rfl)), h.on _ hd (hfree _ (.inr rfl))⟩

/-- **The traversal begins** with all switches on the stack. -/
theorem Verified.start (hjoined : Joined now dps) :
    TraversalInv myLinks dps₂ ⟨dps₂.keys.reverse, ∅, ∅, dps₂⟩ := by
  have hw := h.wired hphys hjoined
  have hstack : ∀ l, myLinks.Has l → l.srcDpid ∈ dps₂.keys.reverse := by
    intro l hl
    obtain ⟨⟨port, hport⟩, -⟩ := hw.known (SamePorts.refl dps₂) hl
    obtain ⟨ports, hports, -⟩ := bind_eq_some_iff.1 hport
    exact List.mem_reverse.2 (OrdMap.mem_keys.2 ⟨ports, hports⟩)
  refine ⟨fun l hl => .inr (hstack l hl), ⊥, Explored.start ?_ fun u v huv => ?_, ?_⟩
  · exact List.nodup_reverse.2 (OrdMap.nodup_keys dps₂)
  · obtain ⟨-, l, hl, rfl, -⟩ := (linkGraph_adj hw.symm).1 huv
    exact hstack l hl
  exact
    { same := SamePorts.refl dps₂
      kept_on := fun e he => absurd he (h.not_kept e)
      kept_link := fun l _ hk => absurd hk (h.not_kept _)
      adj_kept := fun u v huv => huv.elim
      kept_unique := fun l _ _ _ hk => absurd hk (h.not_kept _)
      settled := fun l _ hs => absurd hs.1 (Finset.notMem_empty _)
      unseen := fun l hl _ => h.on_ends hphys hl
      untouched := fun e _ hon => hon }

end

end Verified

/-! ### The callback -/

/-- **The last loop makes the enabled ports flood.** -/
theorem exists_update (dps : Datapaths)
    (h : ∀ d p port, dps.port d p = some port → p ≤ ofppMax → ∃ flood, port.flood = some flood) :
    ∃ dps' : Datapaths, dps.traverse (fun _ ports => ports.traverse Port.update) = some dps' ∧
      (∀ e, dps'.on e ↔ dps.on e) ∧
      ∀ d p port, p ≤ ofppMax → dps'.port d p = some port → port.flood = some port.enable := by
  have hupdate : ∀ d p port, dps.port d p = some port → ∃ port', port.update p = some port' ∧
      port'.enable = port.enable ∧ (p ≤ ofppMax → port'.flood = some port.enable) := by
    intro d p port hport
    unfold Port.update
    split_ifs with hp
    · obtain ⟨flood, hflood⟩ := h d p port hport hp
      refine ⟨_, map_eq_some_iff.2 ⟨flood, hflood, rfl⟩, rfl, fun _ => ?_⟩
      cases port.enable <;> cases flood <;> rfl
    · exact ⟨port, rfl, rfl, fun hle => absurd hle hp⟩
  obtain ⟨dps', hdps'⟩ := exists_traverse dps Port.update fun d p port hport =>
    (hupdate d p port hport).imp fun _ => And.left
  have hport := port_traverse hdps'
  refine ⟨dps', hdps', fun e => ?_, fun d p port' hp hport' => ?_⟩
  · rw [on_iff, on_iff, hport]
    constructor
    · rintro ⟨port', hp', hon⟩
      obtain ⟨port, hp, hup⟩ := bind_eq_some_iff.1 hp'
      obtain ⟨port'', hup', henable, -⟩ := hupdate _ _ _ hp
      obtain rfl := some.inj (hup.symm.trans hup')
      exact ⟨port, hp, henable ▸ hon⟩
    · rintro ⟨port, hp, hon⟩
      obtain ⟨port', hup, henable, -⟩ := hupdate _ _ _ hp
      exact ⟨port', by rw [hp, bind_some, hup], henable.trans hon⟩
  · rw [hport] at hport'
    obtain ⟨port, hp', hup⟩ := bind_eq_some_iff.1 hport'
    obtain ⟨port'', hup', henable, hflood⟩ := hupdate _ _ _ hp'
    obtain rfl := some.inj (hup.symm.trans hup')
    rw [hflood hp, henable]

/-- **The flood ports form a spanning forest.**  For all switches whose ports have a speed and are
past their hold time, and all links such that a port is on one physical link, the callback raises
no error.  Afterwards the links in both directions whose ports are both enabled join no switch to
itself, at most one of them joins two switches, and they form an acyclic graph that connects
exactly what the links in both directions between recorded ports connect; ports on no link are
enabled, and the ports flood that are enabled. -/
theorem flood_ports_form_spanning_forest (order : Orders) (now : ℕ) (links : List Link)
    (dps : Datapaths) (hjoined : Joined now dps) (hphys : OnePhysicalLink links) :
    ∃ u, updateSpanningTreeCallback order now links dps = some u ∧
      SpanningForest links dps u.datapaths := by
  obtain ⟨dps₁, hmark, hfresh⟩ := hjoined.exists_mark
  obtain ⟨myLinks, dps₂, hverify, hver⟩ := hfresh.exists_verify order links
  have hw := hver.wired hphys hjoined
  obtain ⟨t, htrav, hsrcs, hall, T, hex, hwr⟩ :=
    (hver.start hphys hjoined).traverse order hw (le_refl _)
  have hsame := hver.same.trans hwr.same
  obtain ⟨dps₃, hup, hon, hflood⟩ := exists_update t.datapaths fun d p port hp hle => by
    obtain ⟨port0, hp0, hfixed⟩ := hsame.symm.port_some hp
    obtain ⟨flood, hf⟩ := isSome_iff_exists.1 ((hjoined.ready hp0).2 hle).2
    exact ⟨flood, (congrArg (fun f => f.2.2) hfixed).symm.trans hf⟩
  have hlive := hver.live_iff hall hsrcs hwr hon
  have hlive_symm : ∀ l, Live links dps₃ l → Live links dps₃ l.reverse :=
    fun l hl => ⟨hl.2.1, hl.1, hl.2.2.2, hl.2.2.1⟩
  have hgraph : linkGraph (Live links dps₃) = T := by
    ext u v
    rw [linkGraph_adj hlive_symm]
    constructor
    · rintro ⟨-, l, hl, rfl, rfl⟩
      obtain ⟨hhas, hk⟩ := (hlive l).1 hl
      exact (hwr.kept_link l hhas hk).2
    · intro huv
      obtain ⟨l, hhas, hs, hd, hk⟩ := hwr.adj_kept u v huv
      exact ⟨huv.ne, l, (hlive l).2 ⟨hhas, hk⟩, hs, hd⟩
  have hbidir : myLinks.Has = Bidir links dps := funext fun l => propext (hver.has_iff l)
  refine ⟨⟨dps₃, t.roots, t.datapaths.portMods⟩, ?_, ?_, ?_, ?_, ?_, ?_, hflood⟩
  · rw [updateSpanningTreeCallback, hmark, bind_some, hverify, bind_some]
    simp only
    rw [htrav, bind_some, hup, map_some]
  · intro l hl
    obtain ⟨hhas, hk⟩ := (hlive l).1 hl
    exact (hwr.kept_link l hhas hk).2.ne
  · intro l l' hl hl'
    obtain ⟨hhas, hk⟩ := (hlive l).1 hl
    obtain ⟨hhas', hk'⟩ := (hlive l').1 hl'
    exact hwr.kept_unique l l' hhas hhas' hk hk'
  · rw [hgraph]
    exact hex.acyclic
  · intro u v
    rw [hsrcs] at hex
    rw [hgraph, ← hbidir]
    exact hex.reachable_iff u v
  · intro e he hfree
    refine (hon e).2 (hwr.untouched e (fun l hl => ?_) (hver.on e he fun l hl _ => hfree l hl))
    exact (hfree l ((hver.has_iff l).1 hl).1).1

/-- Sets are gone through in order. -/
def sortedOrder : Orders where
  pairs :=
    { iter := fun s => ((s.map toLex.toEmbedding).sort (· ≤ ·)).map ofLex
      nodup := fun s => (Finset.sort_nodup _ _).map ofLex.injective
      mem_iter := fun s a => by simp }
  dpids :=
    { iter := fun s => s.sort (· ≤ ·)
      nodup := fun s => Finset.sort_nodup _ _
      mem_iter := fun s a => Finset.mem_sort _ }

/-- A port that has joined at time `0`, and does not flood yet. -/
def newPort (speed : ℕ) : Port := ⟨some speed, some 10, some false, false, false⟩

/-- A port with the same number and another speed on each of the links below. -/
def newPorts (n : ℕ) : OrdMap PortNo Port :=
  (List.range n).foldl (fun ports (p : ℕ) => ports.insert p (newPort p)) OrdMap.empty

/-- Three switches. -/
def threeSwitches : Datapaths :=
  ((OrdMap.empty.insert 1 (newPorts 5)).insert 2 (newPorts 5)).insert 3 (newPorts 6)

/-- Two links between the first two switches and one in one direction only, a link from each of
them to the third, and one from the third to itself. -/
def triangleLinks : List Link :=
  let both : List Link := [⟨1, 1, 2, 1⟩, ⟨1, 2, 2, 2⟩, ⟨1, 3, 3, 1⟩, ⟨2, 3, 3, 2⟩, ⟨3, 3, 3, 4⟩]
  both ++ both.map Link.reverse ++ [⟨1, 4, 2, 4⟩]

/-- The hypotheses of `flood_ports_form_spanning_forest` are satisfiable: three switches with links
of all kinds, past their hold time. -/
theorem flood_ports_form_spanning_forest_triangle :
    Joined 20 threeSwitches ∧ OnePhysicalLink triangleLinks ∧
      ∃ u, updateSpanningTreeCallback sortedOrder 20 triangleLinks threeSwitches = some u ∧
        SpanningForest triangleLinks threeSwitches u.datapaths := by
  have hjoined : Joined 20 threeSwitches := by decide
  have hphys : OnePhysicalLink triangleLinks := by decide
  exact ⟨hjoined, hphys, flood_ports_form_spanning_forest sortedOrder 20 triangleLinks
    threeSwitches hjoined hphys⟩

/-- Two switches, of which the first has a port on no link. -/
def twoSwitches : Datapaths := (OrdMap.empty.insert 1 (newPorts 3)).insert 2 (newPorts 2)

/-- The two are joined through a third, which is not recorded. -/
def detourLinks : List Link :=
  let both : List Link := [⟨1, 1, 3, 1⟩, ⟨2, 1, 3, 2⟩]
  both ++ both.map Link.reverse

/-- **A port on no link may change, and a switch that has not joined disconnects others.**  The
port `2` of the first switch is on no link and is disabled before and enabled after; the two
switches are connected by links in both directions, and not by live ones, as the code leaves out
links to ports that are not recorded. -/
theorem unjoined_switch_disconnects :
    Joined 20 twoSwitches ∧ OnePhysicalLink detourLinks ∧
      ∃ u, updateSpanningTreeCallback sortedOrder 20 detourLinks twoSwitches = some u ∧
        (∀ l ∈ detourLinks, ((1, 2) : End) ≠ l.src ∧ ((1, 2) : End) ≠ l.dst) ∧
        ¬ twoSwitches.on (1, 2) ∧ u.datapaths.on (1, 2) ∧
        (linkGraph fun l => l ∈ detourLinks ∧ l.reverse ∈ detourLinks).Reachable 1 2 ∧
        ¬ (linkGraph (Live detourLinks u.datapaths)).Reachable 1 2 := by
  have hrun : (updateSpanningTreeCallback sortedOrder 20 detourLinks twoSwitches).any (fun u =>
      u.datapaths.enabled 1 2 && detourLinks.all fun l =>
        !(u.datapaths.enabled l.srcDpid l.srcPort && u.datapaths.enabled l.dstDpid l.dstPort)) =
      true := by
    decide +kernel
  obtain ⟨u, hu, hobs⟩ := (any_eq_true _ _).1 hrun
  rw [Bool.and_eq_true, List.all_eq_true] at hobs
  refine ⟨by decide, by decide, u, hu, by decide, by unfold on; decide, hobs.1, ?_, ?_⟩
  · have hadj : ∀ l ∈ detourLinks, l.reverse ∈ detourLinks → l.srcDpid ≠ l.dstDpid →
        (linkGraph fun l => l ∈ detourLinks ∧ l.reverse ∈ detourLinks).Adj l.srcDpid l.dstDpid :=
      fun l hl hr hne => (SimpleGraph.fromRel_adj _ _ _).2 ⟨hne, .inl ⟨l, ⟨hl, hr⟩, rfl, rfl⟩⟩
    have h13 := hadj ⟨1, 1, 3, 1⟩ (by decide) (by decide) (by decide)
    have h32 := hadj ⟨3, 2, 2, 1⟩ (by decide) (by decide) (by decide)
    exact h13.reachable.trans h32.reachable
  · have hbot : linkGraph (Live detourLinks u.datapaths) = ⊥ := by
      refine le_bot_iff.1 fun a b hab => ?_
      obtain ⟨-, ⟨l, ⟨hl, -, hs, hd⟩, -⟩ | ⟨l, ⟨hl, -, hs, hd⟩, -⟩⟩ :=
        (SimpleGraph.fromRel_adj _ _ _).1 hab <;>
      · have := hobs.2 l hl
        rw [Bool.not_eq_true', Bool.and_eq_false_iff] at this
        exact this.elim (fun h => Bool.false_ne_true (h.symm.trans hs))
          fun h => Bool.false_ne_true (h.symm.trans hd)
    rw [hbot, SimpleGraph.reachable_bot]
    decide

end NoxClassic.SpanningTree
