/-
# The traversal

The loop of `update_spanning_tree_callback` that takes the switches from a stack.
It is the traversal of `Lib.Forest`; what is added here is how the forest `T` is
written in the marks of the ports (`Written`): the links of `T` are those whose
ports are kept, and of every other link that has been dealt with an end is
disabled.  A port is on one link only, so what is done to a link concerns no other.
-/

import NoxClassic.SpanningTree.Links
import NoxClassic.Lib.Forest

namespace NoxClassic.SpanningTree

open List Option SimpleGraph

open Lib (OrdMap Explored Visiting)

/-- The switches, joined by the links with the property `P`. -/
def linkGraph (P : Link → Prop) : SimpleGraph DPID :=
  SimpleGraph.fromRel fun u v => ∃ l, P l ∧ l.srcDpid = u ∧ l.dstDpid = v

theorem linkGraph_adj {P : Link → Prop} (hsymm : ∀ l, P l → P l.reverse) {u v : DPID} :
    (linkGraph P).Adj u v ↔ u ≠ v ∧ ∃ l, P l ∧ l.srcDpid = u ∧ l.dstDpid = v := by
  refine and_congr_right fun _ => or_iff_left_of_imp ?_
  rintro ⟨l, hl, hs, hd⟩
  exact ⟨l.reverse, hsymm l hl, hd, hs⟩

/-- A dictionary of links in both directions, between ports with a speed that are on one link. -/
structure Wired (links : Links) (dps₀ : Datapaths) : Prop where
  filled : links.Filled
  symm : ∀ l, links.Has l → links.Has l.reverse
  matched : ∀ l l', links.Has l → links.Has l' → l.src = l'.src → l = l'
  speed : ∀ l, links.Has l → ∃ speed, (dps₀.port l.srcDpid l.srcPort).bind Port.speed = some speed

/-- The forest `T` is written in the marks of the ports.  `settled u v` says that the links from
`u` to `v` have been dealt with. -/
structure Written (links : Links) (dps₀ : Datapaths) (T : SimpleGraph DPID) (seen : Finset DPID)
    (settled : DPID → DPID → Prop) (dps : Datapaths) : Prop where
  same : SamePorts dps₀ dps
  kept_on : ∀ e, dps.kept e → dps.on e
  kept_link : ∀ l, links.Has l → dps.kept l.src → dps.kept l.dst ∧ T.Adj l.srcDpid l.dstDpid
  adj_kept : ∀ u v, T.Adj u v → ∃ l, links.Has l ∧ l.srcDpid = u ∧ l.dstDpid = v ∧ dps.kept l.src
  kept_unique : ∀ l l', links.Has l → links.Has l' → dps.kept l.src → dps.kept l'.src →
    l.srcDpid = l'.srcDpid → l.dstDpid = l'.dstDpid → l = l'
  settled : ∀ l, links.Has l → settled l.srcDpid l.dstDpid → dps.on l.src → dps.on l.dst →
    dps.kept l.src
  unseen : ∀ l, links.Has l → l.dstDpid ∉ seen → dps.on l.src ∧ dps.on l.dst
  untouched : ∀ e, (∀ l, links.Has l → e ≠ l.src) → dps₀.on e → dps.on e

variable {order : Orders} {links : Links} {dps₀ dps dps' : Datapaths} {T : SimpleGraph DPID}
  {seen seen' : Finset DPID} {settled settled' : DPID → DPID → Prop} {src dst : DPID}

theorem Written.imp (h : Written links dps₀ T seen settled dps) (hseen : seen ⊆ seen')
    (hsettled : ∀ l, links.Has l → settled' l.srcDpid l.dstDpid →
      settled l.srcDpid l.dstDpid) : Written links dps₀ T seen' settled' dps :=
  { h with
    settled := fun l hl hs => h.settled l hl (hsettled l hl hs)
    unseen := fun l hl hs => h.unseen l hl fun hmem => hs (hseen hmem) }

namespace Wired

/-- A link that begins where another ends is that one in the other direction. -/
theorem eq_reverse (hw : Wired links dps₀) {l l' : Link} (hl : links.Has l) (hl' : links.Has l')
    (h : l.src = l'.dst) : l = l'.reverse :=
  hw.matched l l'.reverse hl (hw.symm l' hl') h

theorem known (hw : Wired links dps₀) (hsame : SamePorts dps₀ dps) {l : Link}
    (hl : links.Has l) : dps.known l.src ∧ dps.known l.dst := by
  have hsrc : ∀ l, links.Has l → dps.known l.src := by
    intro l hl
    obtain ⟨speed, hspeed⟩ := hw.speed l hl
    obtain ⟨port, hport, -⟩ := bind_eq_some_iff.1 hspeed
    exact hsame.known_iff.2 ⟨port, hport⟩
  exact ⟨hsrc l hl, hsrc l.reverse (hw.symm l hl)⟩

end Wired

/-- **A switch is joined to the forest by one of the links to it**, and the others are disabled at
its side. -/
theorem Written.discover (hw : Wired links dps₀) (h : Written links dps₀ T seen settled dps)
    (hseen : ∀ u v, T.Adj u v → u ∈ seen) (hsrc : src ∈ seen) (hdst : dst ∉ seen) {best : Link}
    (hbest : links.Has best) (hbs : best.srcDpid = src) (hbd : best.dstDpid = dst)
    (hm : Marked dps dps'
      (fun e => ∃ l, links.Has l ∧ l.srcDpid = src ∧ l.dstDpid = dst ∧ l ≠ best ∧ e = l.dst)
      fun e => e = best.src ∨ e = best.dst) :
    Written links dps₀ (T ⊔ edge src dst) (insert dst seen)
      (fun u v => settled u v ∨ u = src ∧ v = dst) dps' := by
  have hne : src ≠ dst := fun he => hdst (he ▸ hsrc)
  -- no link of the new switch has been kept
  have hto : ∀ l, links.Has l → l.dstDpid = dst → ¬ dps.kept l.src := fun l hl hd hk =>
    hdst (hd ▸ hseen _ _ (h.kept_link l hl hk).2.symm)
  have hfrom : ∀ l, links.Has l → l.srcDpid = dst → ¬ dps.kept l.src := fun l hl hs hk =>
    hdst (hs ▸ hseen _ _ (h.kept_link l hl hk).2)
  have hbon := h.unseen best hbest (hbd ▸ hdst)
  have hcases : ∀ l, links.Has l → dps'.kept l.src →
      dps.kept l.src ∨ l = best ∨ l = best.reverse := by
    intro l hl hk
    rcases (hm.kept_iff _).1 hk with hk | hk | hk
    · exact .inl hk
    · exact .inr (.inl (hw.matched l best hl hbest hk))
    · exact .inr (.inr (hw.eq_reverse hl hbest hk))
  have hkb : dps'.kept best.src ∧ dps'.kept best.dst :=
    ⟨(hm.kept_iff _).2 (.inr (.inl rfl)), (hm.kept_iff _).2 (.inr (.inr rfl))⟩
  have hedge : (T ⊔ edge src dst).Adj src dst := by
    rw [sup_adj, edge_adj]
    exact .inr ⟨.inl ⟨rfl, rfl⟩, hne⟩
  refine ⟨h.same.trans hm.same, ?_, ?_, ?_, ?_, ?_, ?_, ?_⟩
  · intro e hk
    rw [hm.on_iff]
    rcases (hm.kept_iff e).1 hk with hk | rfl | rfl
    · refine ⟨h.kept_on e hk, ?_⟩
      rintro ⟨l, hl, -, hd, -, rfl⟩
      exact hfrom l.reverse (hw.symm l hl) hd hk
    · refine ⟨hbon.1, ?_⟩
      rintro ⟨l, hl, hs, -, -, he⟩
      have := hw.eq_reverse hbest hl he
      rw [this] at hbd
      exact hne (hs.symm.trans hbd)
    · refine ⟨hbon.2, ?_⟩
      rintro ⟨l, hl, -, -, hlb, he⟩
      have hrev := hw.matched _ _ (hw.symm l hl) (hw.symm _ hbest) he.symm
      exact hlb (congrArg Link.reverse hrev)
  · intro l hl hk
    rcases hcases l hl hk with hk | rfl | rfl
    · obtain ⟨hk', hadj⟩ := h.kept_link l hl hk
      exact ⟨(hm.kept_iff _).2 (.inl hk'), .inl hadj⟩
    · exact ⟨hkb.2, by rw [hbs, hbd]; exact hedge⟩
    · refine ⟨hkb.1, ?_⟩
      show (T ⊔ edge src dst).Adj best.dstDpid best.srcDpid
      rw [hbs, hbd]
      exact hedge.symm
  · intro u v huv
    rw [sup_adj, edge_adj] at huv
    rcases huv with huv | ⟨⟨rfl, rfl⟩ | ⟨rfl, rfl⟩, -⟩
    · obtain ⟨l, hl, hs, hd, hk⟩ := h.adj_kept u v huv
      exact ⟨l, hl, hs, hd, (hm.kept_iff _).2 (.inl hk)⟩
    · exact ⟨best, hbest, hbs, hbd, hkb.1⟩
    · exact ⟨best.reverse, hw.symm best hbest, hbd, hbs, hkb.2⟩
  · -- a new link that is kept is between other switches than an old one
    have hnew : ∀ l l', links.Has l → links.Has l' → dps.kept l.src →
        l' = best ∨ l' = best.reverse → l.srcDpid = l'.srcDpid → l.dstDpid = l'.dstDpid →
        False := by
      rintro l l' hl - hk (rfl | rfl) hs hd
      · exact hto l hl (hd.trans hbd) hk
      · exact hfrom l hl (hs.trans hbd) hk
    have hdirs : best.srcDpid ≠ best.dstDpid := by
      rw [hbs, hbd]
      exact hne
    intro l l' hl hl' hk hk' hs hd
    rcases hcases l hl hk with hk | hb <;> rcases hcases l' hl' hk' with hk' | hb'
    · exact h.kept_unique l l' hl hl' hk hk' hs hd
    · exact (hnew l l' hl hl' hk hb' hs hd).elim
    · exact (hnew l' l hl' hl hk' hb hs.symm hd.symm).elim
    · rcases hb with rfl | rfl <;> rcases hb' with rfl | rfl
      · rfl
      · exact absurd hs hdirs
      · exact absurd hd hdirs
      · rfl
  · intro l hl hs hls hld
    rw [hm.on_iff] at hls hld
    rw [hm.kept_iff]
    rcases hs with hs | ⟨hs, hd⟩
    · exact .inl (h.settled l hl hs hls.1 hld.1)
    · by_cases hlb : l = best
      · exact .inr (.inl (congrArg Link.src hlb))
      · exact absurd ⟨l, hl, hs, hd, hlb, rfl⟩ hld.2
  · intro l hl hd
    rw [Finset.mem_insert, not_or] at hd
    obtain ⟨hls, hld⟩ := h.unseen l hl hd.2
    rw [hm.on_iff, hm.on_iff]
    refine ⟨⟨hls, ?_⟩, hld, ?_⟩
    · rintro ⟨m, hm', hs, -, -, he⟩
      obtain rfl := hw.eq_reverse hl hm' he
      refine hd.2 ?_
      show m.srcDpid ∈ seen
      rwa [hs]
    · rintro ⟨m, -, -, hmd, -, he⟩
      exact hd.1 ((Prod.mk.inj he).1.trans hmd)
  · intro e he hon
    refine (hm.on_iff e).2 ⟨h.untouched e he hon, ?_⟩
    rintro ⟨l, hl, -, -, -, rfl⟩
    exact he l.reverse (hw.symm l hl) rfl

/-- **The links between switches that have been seen are disabled**, unless they are kept. -/
theorem Written.skip (hw : Wired links dps₀) (h : Written links dps₀ T seen settled dps)
    (hsrc : src ∈ seen) (hdst : dst ∈ seen)
    (hm : Marked dps dps' (fun e => (∃ l, links.Has l ∧ l.srcDpid = src ∧ l.dstDpid = dst ∧
      (e = l.src ∨ e = l.dst)) ∧ ¬ dps.kept e) fun _ => False) :
    Written links dps₀ T seen (fun u v => settled u v ∨ u = src ∧ v = dst) dps' := by
  have hkept : ∀ e, dps'.kept e ↔ dps.kept e := fun e => (hm.kept_iff e).trans (or_iff_left id)
  refine ⟨h.same.trans hm.same, ?_, ?_, ?_, ?_, ?_, ?_, ?_⟩
  · intro e hk
    rw [hkept] at hk
    exact (hm.on_iff e).2 ⟨h.kept_on e hk, fun hoff => hoff.2 hk⟩
  · intro l hl hk
    rw [hkept] at hk ⊢
    exact h.kept_link l hl hk
  · intro u v huv
    obtain ⟨l, hl, hs, hd, hk⟩ := h.adj_kept u v huv
    exact ⟨l, hl, hs, hd, (hkept _).2 hk⟩
  · intro l l' hl hl' hk hk'
    rw [hkept] at hk hk'
    exact h.kept_unique l l' hl hl' hk hk'
  · intro l hl hs hls hld
    rw [hm.on_iff] at hls hld
    rw [hkept]
    rcases hs with hs | ⟨hs, hd⟩
    · exact h.settled l hl hs hls.1 hld.1
    · by_contra hk
      exact hls.2 ⟨⟨l, hl, hs, hd, .inl rfl⟩, hk⟩
  · intro l hl hd
    obtain ⟨hls, hld⟩ := h.unseen l hl hd
    rw [hm.on_iff, hm.on_iff]
    refine ⟨⟨hls, ?_⟩, hld, ?_⟩
    · rintro ⟨⟨m, hm', hs, hmd, he | he⟩, -⟩
      · exact hd (hw.matched l m hl hm' he ▸ hmd ▸ hdst)
      · obtain rfl := hw.eq_reverse hl hm' he
        refine hd ?_
        show m.srcDpid ∈ seen
        rwa [hs]
    · rintro ⟨⟨m, -, hs, hmd, he | he⟩, -⟩
      · exact hd ((Prod.mk.inj he).1.trans hs ▸ hsrc)
      · exact hd ((Prod.mk.inj he).1.trans hmd ▸ hdst)
  · intro e he hon
    refine (hm.on_iff e).2 ⟨h.untouched e he hon, ?_⟩
    rintro ⟨⟨l, hl, -, -, rfl | rfl⟩, -⟩
    · exact he l hl rfl
    · exact he l.reverse (hw.symm l hl) rfl

/-! ### The loops -/

section Links

variable {pairs : Finset (PortNo × PortNo)}

theorem Links.mem_pairs_iff (hp : links.pairs src dst = some pairs) {pair : PortNo × PortNo} :
    pair ∈ pairs ↔ links.Has ⟨src, pair.1, dst, pair.2⟩ := by
  constructor
  · exact fun h => ⟨pairs, hp, h⟩
  · rintro ⟨ps, hps, hmem⟩
    rw [some.inj (hp.symm.trans hps)]
    exact hmem

theorem Wired.known_pairs (hw : Wired links dps₀) (hsame : SamePorts dps₀ dps)
    (hp : links.pairs src dst = some pairs) :
    ∀ pair ∈ order.pairs.iter pairs, dps.known (src, pair.1) ∧ dps.known (dst, pair.2) :=
  fun pair hpair => hw.known hsame
    ((Links.mem_pairs_iff hp).1 ((order.pairs.mem_iter pairs pair).1 hpair))

/-- **The fastest link is found and kept.** -/
theorem Wired.keepFastest (order : Orders) (hw : Wired links dps₀) (hsame : SamePorts dps₀ dps)
    (hp : links.pairs src dst = some pairs) :
    ∃ best, links.Has best ∧ best.srcDpid = src ∧ best.dstDpid = dst ∧
      Marked dps ((order.pairs.iter pairs).foldl
          (Datapaths.keepPair src dst (dps.fastest src (order.pairs.iter pairs)).2) dps)
        (fun e => ∃ l, links.Has l ∧ l.srcDpid = src ∧ l.dstDpid = dst ∧ l ≠ best ∧ e = l.dst)
        fun e => e = best.src ∨ e = best.dst := by
  have hiter : ∀ pair, pair ∈ order.pairs.iter pairs ↔ links.Has ⟨src, pair.1, dst, pair.2⟩ :=
    fun pair => (order.pairs.mem_iter pairs pair).trans (Links.mem_pairs_iff hp)
  have hne : order.pairs.iter pairs ≠ [] := by
    obtain ⟨pair, hpair⟩ := hw.filled src dst pairs hp
    exact ne_nil_of_mem ((order.pairs.mem_iter pairs pair).2 hpair)
  have hfast := Datapaths.fastest_mem dps src hne fun pair hpair => by
    obtain ⟨speed, hspeed⟩ := hw.speed _ ((hiter pair).1 hpair)
    obtain ⟨port, hport, hs⟩ := bind_eq_some_iff.1 hspeed
    obtain ⟨port', hport', hfixed⟩ := hsame.port_some hport
    refine ⟨speed, ?_⟩
    rw [hport', bind_some, ← hs]
    exact congrArg Prod.fst hfixed
  generalize (dps.fastest src (order.pairs.iter pairs)).2 = best at hfast
  refine ⟨⟨src, best.1, dst, best.2⟩, (hiter best).1 hfast, rfl, rfl,
    (Datapaths.marked_keepPair (hw.known_pairs hsame hp)).congr (fun e => ?_) fun e => ?_⟩
  · constructor
    · rintro ⟨pair, hpair, hpb, rfl⟩
      refine ⟨_, (hiter pair).1 hpair, rfl, rfl, fun he => hpb ?_, rfl⟩
      obtain ⟨-, h1, -, h2⟩ := Link.mk.inj he
      exact Prod.ext h1 h2
    · rintro ⟨⟨a, p, b, q⟩, hl, rfl, rfl, hlb, rfl⟩
      refine ⟨(p, q), (hiter (p, q)).2 hl, ?_, rfl⟩
      rintro rfl
      exact hlb rfl
  · constructor
    · rintro ⟨pair, -, rfl, he⟩
      exact he
    · exact fun he => ⟨best, hfast, rfl, he⟩

/-- **The links to a switch that has been seen are disabled**, whichever side they are looked at
from. -/
theorem Wired.disableSeen (order : Orders) (hw : Wired links dps₀) (hsame : SamePorts dps₀ dps)
    (hp : links.pairs src dst = some pairs) :
    ∃ dps', dps.disableSeen order links src dst = some dps' ∧
      Marked dps dps' (fun e => (∃ l, links.Has l ∧ l.srcDpid = src ∧ l.dstDpid = dst ∧
        (e = l.src ∨ e = l.dst)) ∧ ¬ dps.kept e) fun _ => False := by
  have hone : ∀ {a b : DPID} {ps : Finset (PortNo × PortNo)}, links.pairs a b = some ps →
      Marked dps ((order.pairs.iter ps).foldl (Datapaths.disablePair a b) dps)
        (fun e => (∃ l, links.Has l ∧ l.srcDpid = a ∧ l.dstDpid = b ∧
          (e = l.src ∨ e = l.dst)) ∧ ¬ dps.kept e) fun _ => False := by
    intro a b ps hps
    refine (Datapaths.marked_disablePair (hw.known_pairs hsame hps)).congr (fun e => ?_)
      fun _ => Iff.rfl
    constructor
    · rintro ⟨pair, hpair, he, hk⟩
      exact ⟨⟨_, (Links.mem_pairs_iff hps).1 ((order.pairs.mem_iter ps pair).1 hpair), rfl, rfl,
        he⟩, hk⟩
    · rintro ⟨⟨⟨a', p, b', q⟩, hl, rfl, rfl, he⟩, hk⟩
      exact ⟨(p, q), (order.pairs.mem_iter ps (p, q)).2 ((Links.mem_pairs_iff hps).2 hl), he, hk⟩
  unfold Datapaths.disableSeen
  split
  · exact ⟨_, map_eq_some_iff.2 ⟨pairs, hp, rfl⟩, hone hp⟩
  obtain ⟨pair, hpair⟩ := hw.filled src dst pairs hp
  obtain ⟨ps, hps, -⟩ := hw.symm _ ((Links.mem_pairs_iff hp).1 hpair)
  refine ⟨_, map_eq_some_iff.2 ⟨ps, hps, rfl⟩,
    (hone hps).congr (fun e => and_congr_left fun _ => ?_) fun _ => Iff.rfl⟩
  constructor <;> rintro ⟨l, hl, hs, hd, he⟩ <;> exact ⟨l.reverse, hw.symm l hl, hd, hs, he.symm⟩

end Links

/-- The state while `src` is visited: the destinations `done` have been looked at.  A switch with
links, be it to itself only, is seen or still on the stack. -/
def VisitInv (links : Links) (dps₀ : Datapaths) (src : DPID) (rest done : List DPID) (v : Visit) :
    Prop :=
  (∀ l, links.Has l → l.srcDpid ∈ v.seen ∨ l.srcDpid ∈ rest) ∧
  ∃ T, Visiting (linkGraph links.Has) T src rest v.nextDpids v.seen (fun w => w ∈ done) ∧
    Written links dps₀ T v.seen
      (fun u w => (u ∈ v.seen ∧ u ∉ rest ∧ u ≠ src) ∨ u = src ∧ w ∈ done) v.datapaths

variable {rest done : List DPID} {v : Visit}

/-- **A destination is looked at.** -/
theorem VisitInv.visitDst (hw : Wired links dps₀) (h : VisitInv links dps₀ src rest done v)
    {pairs : Finset (PortNo × PortNo)} (hp : links.pairs src dst = some pairs) :
    ∃ v', visitDst order links src v dst = some v' ∧
      VisitInv links dps₀ src rest (done ++ [dst]) v' := by
  obtain ⟨hall, T, hv, hwr⟩ := h
  obtain ⟨pair, hpair⟩ := hw.filled src dst pairs hp
  have hadj : src ≠ dst → (linkGraph links.Has).Adj src dst := fun hne =>
    (linkGraph_adj hw.symm).2 ⟨hne, _, (Links.mem_pairs_iff hp).1 hpair, rfl, rfl⟩
  have hdone : ∀ w, w ∈ done ++ [dst] ↔ w ∈ done ∨ w = dst := fun w => by
    rw [mem_append, mem_singleton]
  unfold SpanningTree.visitDst VisitInv
  simp only [hdone]
  by_cases hdst : dst ∉ v.seen
  · rw [if_pos hdst]
    have hadj := hadj fun he => hdst (he ▸ hv.src_seen)
    obtain ⟨best, hbest, hbs, hbd, hm⟩ := hw.keepFastest order hwr.same hp
    refine ⟨_, by rw [hp, map_some],
      fun l hl => (hall l hl).imp_left Finset.mem_insert_of_mem, _, hv.discover hadj hdst,
      (hwr.discover hw hv.seen_of_adj hv.src_seen hdst hbest hbs hbd hm).imp
        (Finset.Subset.refl _) ?_⟩
    rintro l - (⟨hs, hr, hne⟩ | ⟨hs, hd | hd⟩)
    · -- the new switch is still on the stack
      have hrest := hv.waiting dst src hadj.symm hdst
      have hs := (Finset.mem_insert.1 hs).resolve_left fun he => hr (he ▸ hrest)
      exact .inl (.inl ⟨hs, hr, hne⟩)
    · exact .inl (.inr ⟨hs, hd⟩)
    · exact .inr ⟨hs, hd⟩
  · rw [if_neg hdst]
    rw [not_not] at hdst
    obtain ⟨dps', hdis, hm⟩ := hw.disableSeen order hwr.same hp
    have hadj : (linkGraph links.Has).Adj src dst ∨ dst = src := by
      by_cases he : src = dst
      · exact .inr he.symm
      · exact .inl (hadj he)
    refine ⟨{ v with datapaths := dps' }, by rw [hdis, map_some], hall, T, hv.skip hadj hdst,
      (hwr.skip hw hv.src_seen hdst hm).imp (Finset.Subset.refl _) ?_⟩
    rintro l - (hs | ⟨hs, hd | hd⟩)
    · exact .inl (.inl hs)
    · exact .inl (.inr ⟨hs, hd⟩)
    · exact .inr ⟨hs, hd⟩

/-- The state between two visits. -/
def TraversalInv (links : Links) (dps₀ : Datapaths) (t : Traversal) : Prop :=
  (∀ l, links.Has l → l.srcDpid ∈ t.seen ∨ l.srcDpid ∈ t.srcs) ∧
  ∃ T, Explored (linkGraph links.Has) T t.srcs t.seen ∧
    Written links dps₀ T t.seen (fun u _ => u ∈ t.seen ∧ u ∉ t.srcs) t.datapaths

variable {t : Traversal}

/-- The visit of a source begins. -/
theorem TraversalInv.pop (h : TraversalInv links dps₀ { t with srcs := rest ++ [src] }) :
    VisitInv links dps₀ src rest [] ⟨t.datapaths, insert src t.seen, []⟩ := by
  obtain ⟨hall, T, hex, hwr⟩ := h
  refine ⟨fun l hl => ?_, T, ?_, hwr.imp (Finset.subset_insert _ _) ?_⟩
  · rcases hall l hl with hs | hs
    · exact .inl (Finset.mem_insert_of_mem hs)
    · rcases mem_append.1 hs with hs | hs
      · exact .inr hs
      · exact .inl (Finset.mem_insert.2 (.inl (mem_singleton.1 hs)))
  · simpa only [not_mem_nil] using hex.pop
  · rintro l - (⟨hs, hr, hne⟩ | ⟨-, hd⟩)
    · refine ⟨(Finset.mem_insert.1 hs).resolve_left hne, fun hmem => ?_⟩
      rcases mem_append.1 hmem with hmem | hmem
      · exact hr hmem
      · exact hne (mem_singleton.1 hmem)
    · nomatch hd

/-- The visit of a source ends when all its destinations have been looked at. -/
theorem VisitInv.finish (hw : Wired links dps₀) (h : VisitInv links dps₀ src rest done v)
    (hdone : ∀ l, links.Has l → l.srcDpid = src → l.dstDpid ∈ done) (roots : Finset DPID) :
    TraversalInv links dps₀ ⟨v.nextDpids.reverse.foldl List.erase rest ++ v.nextDpids.reverse,
        v.seen, roots, v.datapaths⟩ ∧
      (v.nextDpids.reverse.foldl List.erase rest ++ v.nextDpids.reverse).length = rest.length := by
  obtain ⟨hall, T, hv, hwr⟩ := h
  rw [← diff_eq_foldl]
  refine ⟨⟨fun l hl => (hall l hl).imp_right (hv.mem_stack _).2, T,
    hv.finish fun w hadj => ?_, hwr.imp (Finset.Subset.refl _) ?_⟩, hv.length_finish⟩
  · obtain ⟨-, l, hl, hs, hd⟩ := (linkGraph_adj hw.symm).1 hadj
    exact hd ▸ hdone l hl hs
  · rintro l hl ⟨hs, hr⟩
    by_cases hsrc : l.srcDpid = src
    · exact .inr ⟨hsrc, hdone l hl hsrc⟩
    · exact .inl ⟨hs, fun hmem => hr ((hv.mem_stack _).2 hmem), hsrc⟩

/-- **A source is visited.** -/
theorem TraversalInv.visitSrc (order : Orders) (hw : Wired links dps₀)
    (h : TraversalInv links dps₀ { t with srcs := rest ++ [src] }) :
    ∃ t', visitSrc order links { t with srcs := rest } src = some t' ∧
      TraversalInv links dps₀ t' ∧ t'.srcs.length = rest.length := by
  unfold SpanningTree.visitSrc
  simp only
  split
  · rename_i hnone
    have hdone : ∀ l, links.Has l → l.srcDpid = src → l.dstDpid ∈ ([] : List DPID) := by
      rintro l ⟨pairs, hp, -⟩ rfl
      rw [Links.pairs, hnone] at hp
      cases hp
    have hfin := h.pop.finish hw hdone (if src ∉ t.seen then insert src t.roots else t.roots)
    simp only [reverse_nil, foldl_nil, append_nil] at hfin
    exact ⟨_, rfl, hfin.1, rfl⟩
  · rename_i dsts hdsts
    have hpairs : ∀ dst ∈ dsts.keys, ∃ pairs, links.pairs src dst = some pairs := by
      intro dst hdst
      rw [Links.pairs, hdsts, bind_some]
      exact OrdMap.mem_keys.1 hdst
    obtain ⟨v, hrun, done, hdone, hv⟩ := Lib.foldlM_total (SpanningTree.visitDst order links src)
      (fun todo v => ∃ done, done ++ todo = dsts.keys ∧ VisitInv links dps₀ src rest done v)
      (s := ⟨t.datapaths, insert src t.seen, []⟩) ⟨[], nil_append _, h.pop⟩ (by
        rintro dst todo v ⟨done, hdone, hv⟩
        obtain ⟨pairs, hp⟩ := hpairs dst (hdone ▸ by simp)
        obtain ⟨v', hstep, hv'⟩ := hv.visitDst hw hp
        exact ⟨v', hstep, done ++ [dst], by rw [← hdone, append_assoc]; rfl, hv'⟩)
    rw [append_nil] at hdone
    subst hdone
    rw [hrun, map_some]
    refine ⟨_, rfl, hv.finish hw ?_ _⟩
    rintro l ⟨pairs, hp, -⟩ rfl
    rw [Links.pairs, hdsts, bind_some] at hp
    exact OrdMap.mem_keys.2 ⟨pairs, hp⟩

/-- **The traversal ends**, after as many visits as there are switches. -/
theorem TraversalInv.traverse (order : Orders) (hw : Wired links dps₀) {fuel : ℕ}
    (h : TraversalInv links dps₀ t) (hfuel : t.srcs.length ≤ fuel) :
    ∃ t', traverse order links fuel t = some t' ∧ t'.srcs = [] ∧ TraversalInv links dps₀ t' := by
  induction fuel generalizing t with
  | zero =>
    have hnil : t.srcs = [] := eq_nil_of_length_eq_zero (Nat.le_zero.1 hfuel)
    refine ⟨t, ?_, hnil, h⟩
    rw [SpanningTree.traverse, hnil]
    rfl
  | succ fuel ih =>
    rcases eq_nil_or_concat t.srcs with hnil | ⟨rest, src, hsrcs⟩
    · refine ⟨t, ?_, hnil, h⟩
      rw [SpanningTree.traverse, hnil]
      rfl
    · rw [concat_eq_append] at hsrcs
      have h : TraversalInv links dps₀ { t with srcs := rest ++ [src] } := by
        rw [← hsrcs]
        exact h
      obtain ⟨t1, hstep, h1, hlen⟩ := h.visitSrc order hw
      rw [hsrcs, length_append] at hfuel
      obtain ⟨t', hrun, hsrcs', h'⟩ := ih h1 (hlen ▸ Nat.le_of_succ_le_succ hfuel)
      refine ⟨t', ?_, hsrcs', h'⟩
      rw [SpanningTree.traverse, hsrcs, List.getLast?_concat, dropLast_concat]
      simp only
      rw [hstep, bind_some, hrun]

end NoxClassic.SpanningTree
