/-
# The links that are seen in both directions

`build_link_dict` and `verify_bidir_links`.  A link is in the dictionary
(`Links.Has`) if discovery has seen it and both its ports are enabled.
`verify_bidir_links` deletes from the dictionary, while it goes through it, what is
there in one direction only, and disables an end of it.  No deletion changes
whether another link is seen in both directions (`Verifying`), so the order in
which the dictionary is gone through does not matter (`verifyBidirLinks_spec`).
-/

import NoxClassic.SpanningTree.Ports

namespace NoxClassic.SpanningTree

open List Option Links

open Lib (OrdMap)

/-- The link is in the dictionary. -/
def Links.Has (links : Links) (l : Link) : Prop :=
  ∃ pairs, links.pairs l.srcDpid l.dstDpid = some pairs ∧ (l.srcPort, l.dstPort) ∈ pairs

/-- No set of the dictionary is empty. -/
def Links.Filled (links : Links) : Prop :=
  ∀ src dst pairs, links.pairs src dst = some pairs → pairs.Nonempty

/-! ### `build_link_dict` -/

theorem Links.pairs_track (links : Links) (l : Link) (src dst : DPID) :
    (links.track l).pairs src dst =
      if src = l.srcDpid ∧ dst = l.dstDpid then
        some (insert (l.srcPort, l.dstPort) ((links.pairs src dst).getD ∅))
      else links.pairs src dst := by
  unfold track pairs
  rw [OrdMap.find?_insert]
  by_cases hs : src = l.srcDpid
  · subst hs
    rw [if_pos rfl, bind_some, OrdMap.find?_insert]
    by_cases hd : dst = l.dstDpid
    · subst hd
      rw [if_pos rfl, if_pos ⟨rfl, rfl⟩]
      cases links.find? l.srcDpid <;> rfl
    · rw [if_neg hd, if_neg fun h => hd h.2]
      cases links.find? l.srcDpid <;> rfl
  · rw [if_neg hs, if_neg fun h => hs h.1]

variable {links : Links}

theorem Links.has_track {l l' : Link} : (links.track l).Has l' ↔ links.Has l' ∨ l' = l := by
  obtain ⟨a, p, b, q⟩ := l
  obtain ⟨a', p', b', q'⟩ := l'
  unfold Links.Has
  rw [pairs_track]
  by_cases h : a' = a ∧ b' = b
  · obtain ⟨rfl, rfl⟩ := h
    cases links.pairs a' b' <;> simp [or_comm]
  · rw [if_neg h]
    refine (or_iff_left ?_).symm
    intro he
    obtain ⟨rfl, -, rfl, -⟩ := Link.mk.inj he
    exact h ⟨rfl, rfl⟩

theorem Links.filled_track (h : links.Filled) (l : Link) : (links.track l).Filled := by
  intro src dst pairs hp
  rw [pairs_track] at hp
  split at hp
  · rw [← some.inj hp]
    exact Finset.insert_nonempty _ _
  · exact h src dst pairs hp

/-- **The dictionary has the links whose ends are both enabled.** -/
theorem buildLinkDict_spec (dps : Datapaths) (links : List Link) :
    (∀ l, (buildLinkDict dps links).Has l ↔ l ∈ links ∧ dps.on l.src ∧ dps.on l.dst) ∧
      (buildLinkDict dps links).Filled := by
  unfold buildLinkDict
  induction links using List.reverseRecOn with
  | nil =>
    refine ⟨fun l => iff_of_false ?_ fun h => absurd h.1 not_mem_nil, ?_⟩
    · rintro ⟨pairs, hp, -⟩
      nomatch hp
    · intro src dst pairs hp
      nomatch hp
  | append_singleton links l ih =>
    obtain ⟨hhas, hfilled⟩ := ih
    rw [foldl_append, foldl_cons, foldl_nil]
    split_ifs with hon <;> rw [Bool.and_eq_true] at hon
    · refine ⟨fun l' => ?_, filled_track hfilled l⟩
      rw [has_track, hhas, mem_append, mem_singleton]
      constructor
      · rintro (h | rfl)
        · exact ⟨.inl h.1, h.2⟩
        · exact ⟨.inr rfl, hon⟩
      · rintro ⟨h | rfl, hon'⟩
        · exact .inl ⟨h, hon'⟩
        · exact .inr rfl
    · refine ⟨fun l' => ?_, hfilled⟩
      rw [hhas, mem_append, mem_singleton]
      refine and_congr_left fun hon' => (or_iff_left ?_).symm
      rintro rfl
      exact hon hon'

/-! ### `verify_bidir_links` -/

/-- The port is an end of a link in one direction. -/
def OneWay (links : Links) (e : End) : Prop :=
  ∃ l, links.Has l ∧ ¬ links.Has l.reverse ∧ (e = l.src ∨ e = l.dst)

/-- What is true while `verify_bidir_links` goes through the dictionary `links₀`: what has been
deleted or disabled was of a link in one direction. -/
structure Verifying (links₀ : Links) (dps₀ : Datapaths) (links : Links) (dps : Datapaths) :
    Prop where
  sub : ∀ l, links.Has l → links₀.Has l
  bidir : ∀ l, links₀.Has l → links₀.Has l.reverse → links.Has l
  marked : ∃ off, Marked dps₀ dps off (fun _ => False) ∧ ∀ e, off e → OneWay links₀ e

variable {order : Orders} {links₀ links links' : Links} {dps₀ dps : Datapaths} {src dst : DPID}

theorem Verifying.refl (links₀ : Links) (dps₀ : Datapaths) : Verifying links₀ dps₀ links₀ dps₀ :=
  ⟨fun _ h => h, fun _ h _ => h, _, Marked.refl dps₀, fun _ h => h.elim⟩

/-- Links in one direction are deleted. -/
theorem Verifying.delete (h : Verifying links₀ dps₀ links dps)
    (hsub : ∀ l, links'.Has l → links.Has l)
    (hkeep : ∀ l, links.Has l → links₀.Has l.reverse → links'.Has l) :
    Verifying links₀ dps₀ links' dps :=
  ⟨fun l hl => h.sub l (hsub l hl), fun l hl hr => hkeep l (h.bidir l hl hr) hr, h.marked⟩

variable {pair : PortNo × PortNo}

theorem Links.isBidir_iff :
    links.isBidir src dst pair = true ↔ links.Has ⟨dst, pair.2, src, pair.1⟩ := by
  unfold isBidir Links.Has
  rw [Option.any_eq_true]
  simp only [decide_eq_true_eq]
  rfl

/-- **Whether a link is seen in both directions can be read off at any time.** -/
theorem Verifying.isBidir_iff (h : Verifying links₀ dps₀ links dps)
    (hl : links.Has ⟨src, pair.1, dst, pair.2⟩) :
    links.isBidir src dst pair = true ↔ links₀.Has ⟨dst, pair.2, src, pair.1⟩ := by
  rw [Links.isBidir_iff]
  exact ⟨h.sub _, fun hr => h.bidir _ hr (h.sub _ hl)⟩

/-- One end of a link in one direction is disabled. -/
theorem Verifying.disableOneWay (h : Verifying links₀ dps₀ links dps)
    (hl : links₀.Has ⟨src, pair.1, dst, pair.2⟩) (hr : ¬ links₀.Has ⟨dst, pair.2, src, pair.1⟩)
    (hknown : dps₀.known (src, pair.1) ∧ dps₀.known (dst, pair.2)) :
    ∃ dps', dps.disableOneWay src dst pair = some dps' ∧ Verifying links₀ dps₀ links dps' := by
  obtain ⟨off, hm, hoff⟩ := h.marked
  obtain ⟨hs, hd⟩ := hknown
  rw [← hm.same.known_iff] at hs hd
  have hend : ∃ e dps', dps.disableOneWay src dst pair = some dps' ∧
      Marked dps dps' (fun e' => e' = e) (fun _ => False) ∧
      (e = (src, pair.1) ∨ e = (dst, pair.2)) := by
    unfold Datapaths.disableOneWay
    split
    · obtain ⟨dps', hmod, hm'⟩ := Datapaths.marked_disable hd
      exact ⟨_, dps', by rw [hmod, some_or], hm', .inr rfl⟩
    · obtain ⟨dps', hmod, hm'⟩ := Datapaths.marked_disable hs
      exact ⟨_, dps', by rw [hmod, some_or], hm', .inl rfl⟩
  obtain ⟨e, dps', hdis, hm', he⟩ := hend
  refine ⟨dps', hdis, h.sub, h.bidir, _,
    (hm.trans hm').congr (fun _ => Iff.rfl) fun _ => or_self_iff, ?_⟩
  rintro e' (he' | rfl)
  · exact hoff e' he'
  · exact ⟨_, hl, hr, he⟩

/-- The ends of the links of the dictionary are recorded. -/
def Links.Known (links : Links) (dps : Datapaths) : Prop :=
  ∀ l, links.Has l → dps.known l.src ∧ dps.known l.dst

/-- One link is checked. -/
theorem Verifying.checkPair (h : Verifying links₀ dps₀ links dps) (hknown : links₀.Known dps₀)
    (hl : links.Has ⟨src, pair.1, dst, pair.2⟩) (found : List (PortNo × PortNo)) :
    ∃ dps', checkPair links src dst (found, dps) pair =
        some (found ++ [pair].filter fun pair => !links.isBidir src dst pair, dps') ∧
      Verifying links₀ dps₀ links dps' := by
  unfold SpanningTree.checkPair
  by_cases hb : links.isBidir src dst pair = true
  · exact ⟨dps, by simp [hb], h⟩
  · obtain ⟨dps', hdis, hv⟩ := h.disableOneWay (h.sub _ hl)
      (fun hr => hb ((h.isBidir_iff hl).2 hr)) (hknown _ (h.sub _ hl))
    exact ⟨dps', by simp [hb, hdis], hv⟩

/-- **The links of two switches that are in one direction are found**, and one end of each is
disabled. -/
theorem Verifying.foldlM_checkPair (h : Verifying links₀ dps₀ links dps)
    (hknown : links₀.Known dps₀) {todo : List (PortNo × PortNo)}
    (hl : ∀ pair ∈ todo, links.Has ⟨src, pair.1, dst, pair.2⟩) (found : List (PortNo × PortNo)) :
    ∃ dps', todo.foldlM (SpanningTree.checkPair links src dst) (found, dps) =
        some (found ++ todo.filter fun pair => !links.isBidir src dst pair, dps') ∧
      Verifying links₀ dps₀ links dps' := by
  induction todo generalizing found dps with
  | nil => exact ⟨dps, by simp, h⟩
  | cons pair todo ih =>
    have hl := forall_mem_cons.1 hl
    obtain ⟨dps1, hstep, hv1⟩ := h.checkPair hknown hl.1 found
    obtain ⟨dps2, hrun, hv2⟩ := ih hv1 hl.2
      (found ++ [pair].filter fun pair => !links.isBidir src dst pair)
    refine ⟨dps2, ?_, hv2⟩
    rw [foldlM_cons, hstep]
    refine hrun.trans ?_
    rw [append_assoc, ← filter_append, singleton_append]

variable {pairs : Finset (PortNo × PortNo)}

/-- `links[src_dpid][dst_dpid].discard(ports)`. -/
theorem discardPair_spec (hp : links.pairs src dst = some pairs)
    (dels : List DPID) (pair : PortNo × PortNo) :
    ∃ links', discardPair src dst (links, dels) pair =
        some (links', if (pairs.erase pair).card = 0 then dels ++ [dst] else dels) ∧
      (∀ d, (links'.find? d).isSome = (links.find? d).isSome) ∧
      ∀ a b, links'.pairs a b =
        if a = src ∧ b = dst then some (pairs.erase pair) else links.pairs a b := by
  obtain ⟨dsts, hdsts, hpairs⟩ := bind_eq_some_iff.1 hp
  refine ⟨_, by rw [discardPair, hdsts, bind_some, hpairs, map_some], ?_, ?_⟩
  · intro d
    rw [OrdMap.find?_insert]
    split_ifs with hd
    · rw [hd, hdsts]
      rfl
    · rfl
  · intro a b
    unfold Links.pairs
    rw [OrdMap.find?_insert]
    by_cases ha : a = src
    · subst ha
      simp only [if_pos, hdsts, bind_some, OrdMap.find?_insert, true_and]
    · rw [if_neg ha, if_neg fun h => ha h.1]

/-- **The pairs that have been found are deleted.**  The destination is to be deleted if none is
left, which can be seen only after the last. -/
theorem foldlM_discardPair {found : List (PortNo × PortNo)} (hnodup : found.Nodup)
    (hp : links.pairs src dst = some pairs)
    (hfound : ∀ pair ∈ found, pair ∈ pairs) (hne : pairs.Nonempty) (dels : List DPID) :
    ∃ links', found.foldlM (discardPair src dst) (links, dels) =
        some (links', if pairs \ found.toFinset = ∅ then dels ++ [dst] else dels) ∧
      (∀ d, (links'.find? d).isSome = (links.find? d).isSome) ∧
      ∀ a b, links'.pairs a b =
        if a = src ∧ b = dst then some (pairs \ found.toFinset) else links.pairs a b := by
  induction found generalizing links pairs dels with
  | nil =>
    rw [toFinset_nil, Finset.sdiff_empty, if_neg hne.ne_empty]
    refine ⟨links, rfl, fun _ => rfl, fun a b => ?_⟩
    split_ifs with h
    · rw [h.1, h.2, hp]
    · rfl
  | cons pair found ih =>
    obtain ⟨hpair, hnodup⟩ := nodup_cons.1 hnodup
    have hfound := forall_mem_cons.1 hfound
    have hrest : ∀ q ∈ found, q ∈ pairs.erase pair := fun q hq =>
      Finset.mem_erase.2 ⟨fun he => hpair (he ▸ hq), hfound.2 q hq⟩
    have hsdiff : pairs \ (pair :: found).toFinset = pairs.erase pair \ found.toFinset := by
      ext q
      simp only [toFinset_cons, Finset.mem_sdiff, Finset.mem_insert, Finset.mem_erase, not_or]
      tauto
    obtain ⟨links₁, hstep, hfind1, hpairs1⟩ := discardPair_spec hp dels pair
    have hp1 : links₁.pairs src dst = some (pairs.erase pair) := by
      rw [hpairs1, if_pos ⟨rfl, rfl⟩]
    rw [hsdiff, foldlM_cons, hstep]
    by_cases hempty : pairs.erase pair = ∅
    · have hnil : found = [] := eq_nil_iff_forall_not_mem.2 fun q hq =>
        absurd (hempty ▸ hrest q hq) (Finset.notMem_empty q)
      subst hnil
      rw [hempty] at hpairs1 ⊢
      exact ⟨links₁, rfl, hfind1, hpairs1⟩
    · rw [if_neg (Finset.card_ne_zero.2 (Finset.nonempty_iff_ne_empty.2 hempty))]
      obtain ⟨links2, hrun, hfind2, hpairs2⟩ :=
        ih hnodup hp1 hrest (Finset.nonempty_iff_ne_empty.2 hempty) dels
      refine ⟨links2, hrun, fun d => (hfind2 d).trans (hfind1 d), fun a b => ?_⟩
      rw [hpairs2, hpairs1]
      split <;> rfl

/-- What is true while the destinations of `src` are gone through.  `links₁` is the dictionary
before that, `todo` the destinations that are left and `dels` those to delete. -/
structure VerifyingDsts (links₀ : Links) (dps₀ : Datapaths) (src : DPID) (links₁ : Links)
    (todo : List DPID) (links : Links) (dps : Datapaths) (dels : List DPID) : Prop where
  verifying : Verifying links₀ dps₀ links dps
  others : ∀ a b, a ≠ src → links.pairs a b = links₁.pairs a b
  keys : ∀ d, (links.find? d).isSome = (links₁.find? d).isSome
  todo_nodup : todo.Nodup
  filled : ∀ b ∈ todo, ∃ pairs, links.pairs src b = some pairs ∧ pairs.Nonempty
  checked : ∀ b pairs, b ∉ todo → links.pairs src b = some pairs →
    (pairs = ∅ → b ∈ dels) ∧ ∀ pair ∈ pairs, links₀.Has ⟨b, pair.2, src, pair.1⟩
  dels_nodup : dels.Nodup
  empty : ∀ b ∈ dels, b ∉ todo ∧ links.pairs src b = some ∅

variable {links₁ : Links} {todo dels : List DPID}

/-- The pairs of links in both directions are left of a destination. -/
theorem VerifyingDsts.restrict
    (h : VerifyingDsts links₀ dps₀ src links₁ (dst :: todo) links dps dels) {dps' : Datapaths}
    (hv : Verifying links₀ dps₀ links dps')
    (hp : links.pairs src dst = some pairs)
    (hkeys : ∀ d, (links'.find? d).isSome = (links.find? d).isSome)
    (hpairs : ∀ a b, links'.pairs a b = if a = src ∧ b = dst then
      some (pairs.filter fun pair => links.isBidir src dst pair = true) else links.pairs a b) :
    VerifyingDsts links₀ dps₀ src links₁ todo links' dps'
      (if pairs.filter (fun pair => links.isBidir src dst pair = true) = ∅ then dels ++ [dst]
        else dels) := by
  obtain ⟨hdst, hnodup⟩ := nodup_cons.1 h.todo_nodup
  have hp' : links'.pairs src dst =
      some (pairs.filter fun pair => links.isBidir src dst pair = true) := by
    rw [hpairs, if_pos ⟨rfl, rfl⟩]
  have hother : ∀ a b, ¬ (a = src ∧ b = dst) → links'.pairs a b = links.pairs a b :=
    fun a b hab => by rw [hpairs, if_neg hab]
  have hbidir : ∀ pair ∈ pairs, links.isBidir src dst pair = true →
      links₀.Has ⟨dst, pair.2, src, pair.1⟩ := fun pair hpair =>
    (h.verifying.isBidir_iff ⟨pairs, hp, hpair⟩).1
  refine ⟨hv.delete ?_ ?_, ?_, ?_, hnodup, ?_, ?_, ?_, ?_⟩
  · rintro ⟨a, p, b, q⟩ ⟨ps, hps, hmem⟩
    by_cases hab : a = src ∧ b = dst
    · obtain ⟨rfl, rfl⟩ := hab
      obtain rfl := some.inj (hp'.symm.trans hps)
      exact ⟨pairs, hp, (Finset.mem_filter.1 hmem).1⟩
    · exact ⟨ps, (hother a b hab).symm.trans hps, hmem⟩
  · rintro ⟨a, p, b, q⟩ ⟨ps, hps, hmem⟩ hr
    by_cases hab : a = src ∧ b = dst
    · obtain ⟨rfl, rfl⟩ := hab
      obtain rfl := some.inj (hp.symm.trans hps)
      exact ⟨_, hp', Finset.mem_filter.2 ⟨hmem, (h.verifying.isBidir_iff ⟨pairs, hp, hmem⟩).2 hr⟩⟩
    · exact ⟨ps, (hother a b hab).trans hps, hmem⟩
  · intro a b ha
    rw [hother a b fun hab => ha hab.1, h.others a b ha]
  · exact fun d => (hkeys d).trans (h.keys d)
  · intro b hb
    rw [hother src b fun hab => hdst (hab.2 ▸ hb)]
    exact h.filled b (mem_cons_of_mem dst hb)
  · intro b ps hb hps
    by_cases hbd : b = dst
    · subst hbd
      obtain rfl := some.inj (hp'.symm.trans hps)
      refine ⟨fun he => ?_, fun pair hpair => ?_⟩
      · rw [if_pos he]
        exact mem_append_right _ (mem_singleton_self b)
      · obtain ⟨hmem, hb⟩ := Finset.mem_filter.1 hpair
        exact hbidir pair hmem hb
    · rw [hother src b fun hab => hbd hab.2] at hps
      have hb' : b ∉ dst :: todo := fun hmem => (mem_cons.1 hmem).elim hbd hb
      refine ⟨fun he => ?_, (h.checked b ps hb' hps).2⟩
      have := (h.checked b ps hb' hps).1 he
      split
      · exact mem_append_left _ this
      · exact this
  · split
    · refine h.dels_nodup.append (nodup_singleton dst) (disjoint_singleton.2 ?_)
      exact fun hmem => (h.empty dst hmem).1 mem_cons_self
    · exact h.dels_nodup
  · have hold : ∀ b ∈ dels, b ∉ todo ∧ links'.pairs src b = some ∅ := by
      intro b hb
      obtain ⟨hb', hps⟩ := h.empty b hb
      refine ⟨fun hmem => hb' (mem_cons_of_mem dst hmem), ?_⟩
      rw [hother src b fun hab => hb' (hab.2 ▸ mem_cons_self), hps]
    split_ifs with he
    · rw [he] at hp'
      exact forall_mem_append.2 ⟨hold, forall_mem_singleton.2 ⟨hdst, hp'⟩⟩
    · exact hold

/-- **A destination is checked.** -/
theorem VerifyingDsts.verifyDst (hknown : links₀.Known dps₀)
    (h : VerifyingDsts links₀ dps₀ src links₁ (dst :: todo) links dps dels) :
    ∃ t, verifyDst order src (links, dps, dels) dst = some t ∧
      VerifyingDsts links₀ dps₀ src links₁ todo t.1 t.2.1 t.2.2 := by
  obtain ⟨pairs, hp, hne⟩ := h.filled dst mem_cons_self
  have hhas : ∀ pair ∈ order.pairs.iter pairs, links.Has ⟨src, pair.1, dst, pair.2⟩ :=
    fun pair hpair => ⟨pairs, hp, (order.pairs.mem_iter pairs pair).1 hpair⟩
  obtain ⟨dps', hfind, hv⟩ := h.verifying.foldlM_checkPair hknown hhas []
  rw [nil_append] at hfind
  obtain ⟨links', hdisc, hkeys, hpairs⟩ := foldlM_discardPair
    ((order.pairs.nodup pairs).filter fun pair => !links.isBidir src dst pair) hp
    (fun pair hpair => (order.pairs.mem_iter pairs pair).1 (mem_of_mem_filter hpair)) hne dels
  have hleft : pairs \ ((order.pairs.iter pairs).filter
      fun pair => !links.isBidir src dst pair).toFinset =
      pairs.filter fun pair => links.isBidir src dst pair = true := by
    ext pair
    rw [Finset.mem_sdiff, List.mem_toFinset, mem_filter, order.pairs.mem_iter, Finset.mem_filter]
    simp only [Bool.not_eq_true', not_and, Bool.not_eq_false, and_congr_right_iff]
    exact fun hpair => ⟨fun h => h hpair, fun h _ => h⟩
  rw [hleft] at hdisc hpairs
  have hrestrict := h.restrict hv hp hkeys hpairs
  generalize (if pairs.filter (fun pair => links.isBidir src dst pair = true) = ∅ then dels ++ [dst]
    else dels) = dels' at hdisc hrestrict
  refine ⟨(links', dps', dels'), ?_, hrestrict⟩
  rw [SpanningTree.verifyDst, findOneWay, hp, bind_some, hfind, bind_some, hdisc, map_some]

/-- `del links[src_dpid][dst_dpid]`. -/
theorem deleteDst_spec (hp : links.pairs src dst = some pairs) (srcs : List DPID) :
    ∃ links' srcs', deleteDst src (links, srcs) dst = some (links', srcs') ∧
      (srcs' = srcs ∨ srcs' = srcs ++ [src] ∧ ∀ b, links'.pairs src b = none) ∧
      (∀ d, (links'.find? d).isSome = (links.find? d).isSome) ∧
      ∀ a b, links'.pairs a b = if a = src ∧ b = dst then none else links.pairs a b := by
  obtain ⟨dsts, hdsts, hpairs⟩ := bind_eq_some_iff.1 hp
  refine ⟨_, _, by rw [deleteDst, hdsts, bind_some, hpairs, map_some], ?_, ?_, ?_⟩
  · split_ifs with he
    · refine .inr ⟨rfl, fun b => ?_⟩
      unfold Links.pairs
      rw [OrdMap.find?_insert, if_pos rfl, bind_some]
      exact OrdMap.find?_of_isEmpty he b
    · exact .inl rfl
  · intro d
    rw [OrdMap.find?_insert]
    split_ifs with hd
    · rw [hd, hdsts]
      rfl
    · rfl
  · intro a b
    unfold Links.pairs
    rw [OrdMap.find?_insert]
    by_cases ha : a = src
    · subst ha
      simp only [if_pos, hdsts, bind_some, OrdMap.find?_erase, true_and]
    · rw [if_neg ha, if_neg fun h => ha h.1]

/-- What is true while the destinations `todo` of `src` are deleted.  `srcs` are the sources to
delete before that and `srcs'` those after it. -/
structure DeletingDsts (links₀ : Links) (dps₀ : Datapaths) (src : DPID) (links₁ : Links)
    (srcs todo : List DPID) (links : Links) (dps : Datapaths) (srcs' : List DPID) : Prop where
  verifying : Verifying links₀ dps₀ links dps
  others : ∀ a b, a ≠ src → links.pairs a b = links₁.pairs a b
  keys : ∀ d, (links.find? d).isSome = (links₁.find? d).isSome
  todo_nodup : todo.Nodup
  empty : ∀ b ∈ todo, links.pairs src b = some ∅
  checked : ∀ b pairs, links.pairs src b = some pairs →
    (pairs = ∅ → b ∈ todo) ∧ ∀ pair ∈ pairs, links₀.Has ⟨b, pair.2, src, pair.1⟩
  srcs : srcs' = srcs ∨ srcs' = srcs ++ [src] ∧ ∀ b, links.pairs src b = none

variable {srcs srcs' : List DPID}

/-- **A destination without pairs is deleted.** -/
theorem DeletingDsts.deleteDst
    (h : DeletingDsts links₀ dps₀ src links₁ srcs (dst :: todo) links dps srcs') :
    ∃ t, deleteDst src (links, srcs') dst = some t ∧
      DeletingDsts links₀ dps₀ src links₁ srcs todo t.1 dps t.2 := by
  obtain ⟨hdst, hnodup⟩ := nodup_cons.1 h.todo_nodup
  have hp := h.empty dst mem_cons_self
  -- the source is not to be deleted yet, as this destination is there
  have hsrcs : srcs' = srcs :=
    h.srcs.resolve_right fun hs => some_ne_none _ (hp.symm.trans (hs.2 dst))
  subst hsrcs
  obtain ⟨links', srcs'', hdel, hs, hkeys, hpairs⟩ := deleteDst_spec hp srcs'
  have hother : ∀ a b, ¬ (a = src ∧ b = dst) → links'.pairs a b = links.pairs a b :=
    fun a b hab => by rw [hpairs, if_neg hab]
  have hsome : ∀ a b ps, links'.pairs a b = some ps →
      ¬ (a = src ∧ b = dst) ∧ links.pairs a b = some ps := by
    intro a b ps hps
    rw [hpairs] at hps
    split_ifs at hps with hab
    exact ⟨hab, hps⟩
  refine ⟨(links', srcs''), hdel, h.verifying.delete ?_ ?_, ?_, ?_, hnodup, ?_, ?_, hs⟩
  · rintro l ⟨ps, hps, hmem⟩
    exact ⟨ps, (hsome _ _ ps hps).2, hmem⟩
  · rintro l ⟨ps, hps, hmem⟩ -
    refine ⟨ps, (hother _ _ ?_).trans hps, hmem⟩
    rintro ⟨hls, hld⟩
    rw [hls, hld] at hps
    rw [← some.inj (hp.symm.trans hps)] at hmem
    exact absurd hmem (Finset.notMem_empty _)
  · intro a b ha
    rw [hother a b fun hab => ha hab.1, h.others a b ha]
  · exact fun d => (hkeys d).trans (h.keys d)
  · intro b hb
    rw [hother src b fun hab => hdst (hab.2 ▸ hb)]
    exact h.empty b (mem_cons_of_mem dst hb)
  · intro b ps hps
    obtain ⟨hab, hps⟩ := hsome src b ps hps
    obtain ⟨hmem, hbidir⟩ := h.checked b ps hps
    exact ⟨fun he => (mem_cons.1 (hmem he)).resolve_left fun hb => hab ⟨rfl, hb⟩, hbidir⟩

/-- What is true while the sources are gone through.  `todo` are those left and `srcs` those to
delete. -/
structure VerifyingSrcs (links₀ : Links) (dps₀ : Datapaths) (todo : List DPID) (links : Links)
    (dps : Datapaths) (srcs : List DPID) : Prop where
  verifying : Verifying links₀ dps₀ links dps
  todo_nodup : todo.Nodup
  keys : ∀ d ∈ todo, (links.find? d).isSome
  filled : links.Filled
  checked : ∀ a b pairs, a ∉ todo → links.pairs a b = some pairs →
    ∀ pair ∈ pairs, links₀.Has ⟨b, pair.2, a, pair.1⟩
  srcs_nodup : srcs.Nodup
  empty : ∀ a ∈ srcs, a ∉ todo ∧ (links.find? a).isSome ∧ ∀ b, links.pairs a b = none

/-- All destinations of a source are to be checked. -/
theorem VerifyingSrcs.dsts (h : VerifyingSrcs links₀ dps₀ (src :: todo) links dps srcs)
    {dsts : OrdMap DPID (Finset (PortNo × PortNo))} (hdsts : links.find? src = some dsts) :
    VerifyingDsts links₀ dps₀ src links (order.dpids.iter dsts.keys.toFinset) links dps [] := by
  have hkeys : ∀ b, b ∈ order.dpids.iter dsts.keys.toFinset ↔
      ∃ pairs, links.pairs src b = some pairs := by
    intro b
    rw [order.dpids.mem_iter, List.mem_toFinset, OrdMap.mem_keys, pairs, hdsts, bind_some]
  refine ⟨h.verifying, fun _ _ _ => rfl, fun _ => rfl, order.dpids.nodup _, ?_, ?_,
    nodup_nil, nofun⟩
  · intro b hb
    obtain ⟨pairs, hp⟩ := (hkeys b).1 hb
    exact ⟨pairs, hp, h.filled src b pairs hp⟩
  · intro b pairs hb hp
    exact absurd ((hkeys b).2 ⟨pairs, hp⟩) hb

/-- **A source is checked.** -/
theorem VerifyingSrcs.verifySrc (hknown : links₀.Known dps₀)
    (h : VerifyingSrcs links₀ dps₀ (src :: todo) links dps srcs) :
    ∃ t, verifySrc order (links, dps, srcs) src = some t ∧
      VerifyingSrcs links₀ dps₀ todo t.1 t.2.1 t.2.2 := by
  obtain ⟨hsrc, hnodup⟩ := nodup_cons.1 h.todo_nodup
  obtain ⟨dsts, hdsts⟩ := isSome_iff_exists.1 (h.keys src mem_cons_self)
  obtain ⟨⟨links2, dps2, dels⟩, hrun2, h2⟩ := Lib.foldlM_total (verifyDst order src)
    (fun todo t => VerifyingDsts links₀ dps₀ src links todo t.1 t.2.1 t.2.2)
    (s := (links, dps, [])) (h.dsts hdsts) fun _ _ _ ht => ht.verifyDst hknown
  obtain ⟨⟨links3, srcs'⟩, hrun3, h3⟩ := Lib.foldlM_total (deleteDst src)
    (fun todo t => DeletingDsts links₀ dps₀ src links srcs todo t.1 dps2 t.2)
    (s := (links2, srcs)) ⟨h2.verifying, h2.others, h2.keys, h2.dels_nodup,
      fun b hb => (h2.empty b hb).2, fun b pairs hp => h2.checked b pairs not_mem_nil hp,
      .inl rfl⟩ fun _ _ _ ht => ht.deleteDst
  refine ⟨(links3, dps2, srcs'), ?_, h3.verifying, hnodup, ?_, ?_, ?_, ?_, ?_⟩
  · rw [SpanningTree.verifySrc, hdsts, bind_some, hrun2, bind_some, hrun3, map_some]
  · intro d hd
    rw [h3.keys d]
    exact h.keys d (mem_cons_of_mem src hd)
  · intro a b pairs hp
    by_cases ha : a = src
    · subst ha
      rw [Finset.nonempty_iff_ne_empty]
      exact fun he => nomatch (h3.checked b pairs hp).1 he
    · rw [h3.others a b ha] at hp
      exact h.filled a b pairs hp
  · intro a b pairs hmem hp
    by_cases ha : a = src
    · subst ha
      exact (h3.checked b pairs hp).2
    · rw [h3.others a b ha] at hp
      exact h.checked a b pairs (fun hm => (mem_cons.1 hm).elim ha hmem) hp
  · rcases h3.srcs with hs | ⟨hs, -⟩ <;> rw [hs]
    · exact h.srcs_nodup
    · refine h.srcs_nodup.append (nodup_singleton src) (disjoint_singleton.2 ?_)
      exact fun hmem => (h.empty src hmem).1 mem_cons_self
  · have hold : ∀ a ∈ srcs,
        a ∉ todo ∧ (links3.find? a).isSome ∧ ∀ b, links3.pairs a b = none := by
      intro a ha
      obtain ⟨hmem, hkey, hnone⟩ := h.empty a ha
      have hne : a ≠ src := fun he => hmem (he ▸ mem_cons_self)
      refine ⟨fun hm => hmem (mem_cons_of_mem src hm), (h3.keys a).trans hkey, fun b => ?_⟩
      rw [h3.others a b hne, hnone]
    rcases h3.srcs with hs | ⟨hs, hnone⟩ <;> rw [hs]
    · exact hold
    · exact forall_mem_append.2 ⟨hold, forall_mem_singleton.2
        ⟨hsrc, (h3.keys src).trans (h.keys src mem_cons_self), hnone⟩⟩

/-- **Sources without destinations are deleted**, which changes no link. -/
theorem foldlM_deleteSrc (links : Links) (hnodup : srcs.Nodup)
    (hempty : ∀ a ∈ srcs, (links.find? a).isSome ∧ ∀ b, links.pairs a b = none) :
    ∃ links', srcs.foldlM deleteSrc links = some links' ∧
      ∀ a b, links'.pairs a b = links.pairs a b := by
  induction srcs generalizing links with
  | nil => exact ⟨links, rfl, fun _ _ => rfl⟩
  | cons src srcs ih =>
    obtain ⟨hsrc, hnodup⟩ := nodup_cons.1 hnodup
    obtain ⟨hhead, htail⟩ := forall_mem_cons.1 hempty
    obtain ⟨dsts, hdsts⟩ := isSome_iff_exists.1 hhead.1
    have hpairs : ∀ a b, pairs (links.erase src) a b = links.pairs a b := by
      intro a b
      by_cases ha : a = src
      · subst ha
        rw [hhead.2 b, pairs, OrdMap.find?_erase, if_pos rfl]
        rfl
      · rw [pairs, OrdMap.find?_erase, if_neg ha]
        rfl
    obtain ⟨links', hrun, hlinks'⟩ := ih (links.erase src) hnodup fun a ha => by
      have hne : a ≠ src := fun he => hsrc (he ▸ ha)
      rw [OrdMap.find?_erase, if_neg hne]
      refine ⟨(htail a ha).1, fun b => ?_⟩
      rw [hpairs]
      exact (htail a ha).2 b
    refine ⟨links', ?_, fun a b => (hlinks' a b).trans (hpairs a b)⟩
    rw [foldlM_cons, deleteSrc, hdsts, map_some]
    exact hrun

/-- **`verify_bidir_links` keeps the links that are in the dictionary in both directions**, and
disables only ends of others.  It raises no error. -/
theorem verifyBidirLinks_spec (order : Orders) (hfilled : links₀.Filled)
    (hknown : links₀.Known dps₀) :
    ∃ links dps, verifyBidirLinks order links₀ dps₀ = some (links, dps) ∧
      (∀ l, links.Has l ↔ links₀.Has l ∧ links₀.Has l.reverse) ∧ links.Filled ∧
      ∃ off, Marked dps₀ dps off (fun _ => False) ∧ ∀ e, off e → OneWay links₀ e := by
  have hiter : ∀ d, d ∈ order.dpids.iter links₀.keys.toFinset ↔ (links₀.find? d).isSome := by
    intro d
    rw [order.dpids.mem_iter, List.mem_toFinset, OrdMap.mem_keys, isSome_iff_exists]
  have hstart : VerifyingSrcs links₀ dps₀ (order.dpids.iter links₀.keys.toFinset) links₀ dps₀
      [] := by
    refine ⟨Verifying.refl links₀ dps₀, order.dpids.nodup _, fun d => (hiter d).1, hfilled, ?_,
      nodup_nil, nofun⟩
    intro a b pairs ha hp
    obtain ⟨dsts, hdsts, -⟩ := bind_eq_some_iff.1 hp
    exact absurd ((hiter a).2 (hdsts ▸ rfl)) ha
  obtain ⟨⟨links₁, dps, srcs⟩, hrun, h⟩ := Lib.foldlM_total (verifySrc order)
    (fun todo t => VerifyingSrcs links₀ dps₀ todo t.1 t.2.1 t.2.2) (s := (links₀, dps₀, []))
    hstart fun _ _ _ ht => ht.verifySrc hknown
  obtain ⟨links, hdel, hpairs⟩ := foldlM_deleteSrc links₁ h.srcs_nodup fun a ha => (h.empty a ha).2
  have hhas : ∀ l, links.Has l ↔ links₁.Has l := by
    intro l
    unfold Links.Has
    rw [hpairs]
  refine ⟨links, dps, ?_, fun l => ?_, fun a b pairs hp => ?_, h.verifying.marked⟩
  · rw [verifyBidirLinks, hrun, bind_some, hdel, map_some]
  · rw [hhas]
    constructor
    · intro hl
      obtain ⟨pairs, hp, hmem⟩ := hl
      exact ⟨h.verifying.sub l ⟨pairs, hp, hmem⟩, h.checked _ _ pairs not_mem_nil hp _ hmem⟩
    · exact fun hl => h.verifying.bidir l hl.1 hl.2
  · exact h.filled a b pairs ((hpairs a b).symm.trans hp)

end NoxClassic.SpanningTree
