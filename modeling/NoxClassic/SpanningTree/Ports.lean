/-
# What the loops do to the ports

Every loop of the callback only disables ports and marks ports as to be kept.
`Marked dps dps' off on` says which: the ports of `off` are disabled and those of
`on` are kept.  Such changes compose, so each loop is one statement of this form.
-/

import NoxClassic.SpanningTree.Model
import NoxClassic.Lib.Run

namespace NoxClassic.SpanningTree

open Datapaths List

open Lib (OrdMap)

/-- A port of a switch, as an end of a link. -/
abbrev End := DPID × PortNo

/-- The port of the source. -/
def Link.src (l : Link) : End := (l.srcDpid, l.srcPort)

/-- The port of the destination. -/
def Link.dst (l : Link) : End := (l.dstDpid, l.dstPort)

/-- The link in the other direction. -/
def Link.reverse (l : Link) : Link := ⟨l.dstDpid, l.dstPort, l.srcDpid, l.srcPort⟩

/-- The port is recorded. -/
def Datapaths.known (dps : Datapaths) (e : End) : Prop := ∃ port, dps.port e.1 e.2 = some port

/-- The port is recorded and enabled. -/
def Datapaths.on (dps : Datapaths) (e : End) : Prop := dps.enabled e.1 e.2 = true

/-- The port is recorded and to be kept. -/
def Datapaths.kept (dps : Datapaths) (e : End) : Prop :=
  (dps.port e.1 e.2).any Port.keep = true

/-- What no loop changes in a port. -/
def Port.fixed (port : Port) : Option ℕ × Option ℕ × Option Bool :=
  (port.speed, port.enableTime, port.flood)

theorem Datapaths.on_iff {dps : Datapaths} {e : End} :
    dps.on e ↔ ∃ port, dps.port e.1 e.2 = some port ∧ port.enable = true := by
  exact Option.any_eq_true _ _

theorem Datapaths.kept_iff {dps : Datapaths} {e : End} :
    dps.kept e ↔ ∃ port, dps.port e.1 e.2 = some port ∧ port.keep = true :=
  Option.any_eq_true _ _

/-- The same switches have the same ports, but for the marks. -/
structure SamePorts (dps dps' : Datapaths) : Prop where
  switches : ∀ d, (dps'.find? d).isSome = (dps.find? d).isSome
  fixed : ∀ d p, (dps'.port d p).map Port.fixed = (dps.port d p).map Port.fixed

namespace SamePorts

variable {dps dps' dps'' : Datapaths}

theorem refl (dps : Datapaths) : SamePorts dps dps := ⟨fun _ => rfl, fun _ _ => rfl⟩

section

variable (h : SamePorts dps dps')
include h

theorem trans (h' : SamePorts dps' dps'') : SamePorts dps dps'' :=
  ⟨fun d => (h'.switches d).trans (h.switches d), fun d p => (h'.fixed d p).trans (h.fixed d p)⟩

/-- A port that is recorded stays so. -/
theorem port_some {d : DPID} {p : PortNo} {port : Port}
    (hp : dps.port d p = some port) :
    ∃ port', dps'.port d p = some port' ∧ port'.fixed = port.fixed := by
  have := h.fixed d p
  rw [hp, Option.map_some] at this
  exact Option.map_eq_some_iff.1 this

theorem symm : SamePorts dps' dps :=
  ⟨fun d => (h.switches d).symm, fun d p => (h.fixed d p).symm⟩

theorem known_iff {e : End} : dps'.known e ↔ dps.known e := by
  constructor <;> rintro ⟨port, hp⟩
  · obtain ⟨port', hp', -⟩ := h.symm.port_some hp
    exact ⟨port', hp'⟩
  · obtain ⟨port', hp', -⟩ := h.port_some hp
    exact ⟨port', hp'⟩

end

end SamePorts

/-- The ports of `off` are disabled and those of `on` marked as to be kept. -/
structure Marked (dps dps' : Datapaths) (off on : End → Prop) : Prop where
  same : SamePorts dps dps'
  on_iff : ∀ e, dps'.on e ↔ dps.on e ∧ ¬ off e
  kept_iff : ∀ e, dps'.kept e ↔ dps.kept e ∨ on e

namespace Marked

variable {dps dps' dps'' : Datapaths} {off on off' on' : End → Prop}

theorem refl (dps : Datapaths) : Marked dps dps (fun _ => False) fun _ => False :=
  ⟨SamePorts.refl dps, fun _ => (and_iff_left not_false).symm, fun _ => (or_iff_left id).symm⟩

theorem trans (h : Marked dps dps' off on) (h' : Marked dps' dps'' off' on') :
    Marked dps dps'' (fun e => off e ∨ off' e) fun e => on e ∨ on' e := by
  refine ⟨h.same.trans h'.same, fun e => ?_, fun e => ?_⟩
  · rw [h'.on_iff, h.on_iff, not_or, and_assoc]
  · rw [h'.kept_iff, h.kept_iff, or_assoc]

theorem congr (h : Marked dps dps' off on) (hoff : ∀ e, off e ↔ off' e)
    (hon : ∀ e, on e ↔ on' e) : Marked dps dps' off' on' :=
  ⟨h.same, fun e => by rw [h.on_iff, hoff], fun e => by rw [h.kept_iff, hon]⟩

end Marked

/-! ### Assignments -/

section Modify

variable {dps : Datapaths} {d : DPID} {p : PortNo} {port : Port} {f : Port → Port}

/-- **An assignment to a port that is recorded** changes that port and no other. -/
theorem Datapaths.exists_modify (f : Port → Port) (h : dps.port d p = some port) :
    ∃ dps', dps.modify d p f = some dps' ∧ (∀ d', (dps'.find? d').isSome = (dps.find? d').isSome) ∧
      ∀ e : End, dps'.port e.1 e.2 = if e = (d, p) then some (f port) else dps.port e.1 e.2 := by
  obtain ⟨ports, hports, hport⟩ := Option.bind_eq_some_iff.1 h
  refine ⟨_, by rw [modify, hports, Option.bind_some, hport, Option.map_some], ?_, ?_⟩
  · intro d'
    rw [OrdMap.find?_insert]
    split_ifs with hd
    · rw [hd, hports]
      rfl
    · rfl
  · rintro ⟨d', p'⟩
    rw [Datapaths.port, Datapaths.port, OrdMap.find?_insert]
    by_cases hd : d' = d
    · subst hd
      simp only [if_pos, hports, Option.bind_some, OrdMap.find?_insert, Prod.mk.injEq, true_and]
    · rw [if_neg hd, if_neg fun h => hd (Prod.mk.inj h).1]

/-- An assignment that disables the port if `off` and keeps it if `on`. -/
theorem Datapaths.marked_modify (off on : Port → Prop) (hfixed : ∀ q, (f q).fixed = q.fixed)
    (hoff : ∀ q, (f q).enable = true ↔ q.enable = true ∧ ¬ off q)
    (hon : ∀ q, (f q).keep = true ↔ q.keep = true ∨ on q) (h : dps.port d p = some port) :
    ∃ dps', dps.modify d p f = some dps' ∧
      Marked dps dps' (fun e => e = (d, p) ∧ off port) fun e => e = (d, p) ∧ on port := by
  obtain ⟨dps', hmod, hfind, hport⟩ := exists_modify f h
  refine ⟨dps', hmod, ⟨hfind, fun d' p' => ?_⟩, fun e => ?_, fun e => ?_⟩
  · rw [hport (d', p')]
    split_ifs with he
    · obtain ⟨rfl, rfl⟩ := Prod.mk.inj he
      rw [h, Option.map_some, Option.map_some, hfixed]
    · rfl
  · rw [on_iff, on_iff, hport e]
    by_cases he : e = (d, p)
    · subst he
      simp [h, hoff]
    · simp [he]
  · rw [kept_iff, kept_iff, hport e]
    by_cases he : e = (d, p)
    · subst he
      simp [h, hon]
    · simp [he]

variable {e : End}

/-- `port['enable'] = False`. -/
theorem Datapaths.marked_disable (h : dps.known e) :
    ∃ dps', dps.modify e.1 e.2 Port.disable = some dps' ∧
      Marked dps dps' (fun e' => e' = e) fun _ => False := by
  obtain ⟨port, h⟩ := h
  obtain ⟨dps', hmod, hm⟩ := marked_modify (fun _ => True) (fun _ => False)
    (f := Port.disable) (fun _ => rfl) (by simp [Port.disable]) (by simp [Port.disable]) h
  exact ⟨dps', hmod, hm.congr (fun _ => and_iff_left trivial) fun _ => iff_of_eq (and_false _)⟩

/-- `port['keep'] = True`. -/
theorem Datapaths.marked_setKeep (h : dps.known e) :
    ∃ dps', dps.modify e.1 e.2 Port.setKeep = some dps' ∧
      Marked dps dps' (fun _ => False) fun e' => e' = e := by
  obtain ⟨port, h⟩ := h
  obtain ⟨dps', hmod, hm⟩ := marked_modify (fun _ => False) (fun _ => True)
    (f := Port.setKeep) (fun _ => rfl) (by simp [Port.setKeep]) (by simp [Port.setKeep]) h
  exact ⟨dps', hmod, hm.congr (fun _ => iff_of_eq (and_false _)) fun _ => and_iff_left trivial⟩

/-- `if not port['keep']: port['enable'] = False`. -/
theorem Datapaths.marked_disableUnkept (h : dps.known e) :
    ∃ dps', dps.modify e.1 e.2 Port.disableUnkept = some dps' ∧
      Marked dps dps' (fun e' => e' = e ∧ ¬ dps.kept e') fun _ => False := by
  obtain ⟨port, h⟩ := h
  have hf : ∀ q : Port, q.disableUnkept.fixed = q.fixed ∧
      (q.disableUnkept.enable = true ↔ q.enable = true ∧ ¬ q.keep = false) ∧
      q.disableUnkept.keep = q.keep := by
    intro q
    unfold Port.disableUnkept
    cases hk : q.keep
    · exact ⟨rfl, by simp [Port.disable], hk⟩
    · exact ⟨rfl, by simp, hk⟩
  obtain ⟨dps', hmod, hm⟩ := marked_modify (fun q => q.keep = false) (fun _ => False)
    (fun q => (hf q).1) (fun q => (hf q).2.1) (fun q => by simp [(hf q).2.2]) h
  refine ⟨dps', hmod, hm.congr (fun e' => ?_) fun _ => iff_of_eq (and_false _)⟩
  refine and_congr_right fun he => ?_
  subst he
  simp [kept, h]

end Modify

/-! ### Loops -/

/-- **A loop over a list marks what its steps mark.** -/
theorem Marked.foldl {β : Type*} {dps : Datapaths} {f : Datapaths → β → Datapaths}
    {off on : β → End → Prop} {bs : List β}
    (hstep : ∀ dps' off' on', Marked dps dps' off' on' → (∀ e, on' e → ∃ b ∈ bs, on b e) →
      ∀ b ∈ bs, Marked dps' (f dps' b) (off b) (on b)) :
    Marked dps (bs.foldl f dps) (fun e => ∃ b ∈ bs, off b e) fun e => ∃ b ∈ bs, on b e := by
  induction bs using reverseRecOn with
  | nil =>
    refine (Marked.refl dps).congr (fun e => ?_) fun e => ?_ <;>
      exact iff_of_false id fun ⟨_, hb, _⟩ => nomatch hb
  | append_singleton bs b ih =>
    have hmono : ∀ P : β → Prop, (∃ c ∈ bs, P c) → ∃ c ∈ bs ++ [b], P c :=
      fun P ⟨c, hc, hP⟩ => ⟨c, mem_append_left _ hc, hP⟩
    have hlast : ∀ P : β → Prop, (∃ c ∈ bs, P c) ∨ P b ↔ ∃ c ∈ bs ++ [b], P c := by
      simp [or_and_right, exists_or]
    have hbs := ih fun dps' off' on' hm hon c hc =>
      hstep dps' off' on' hm (fun e he => hmono _ (hon e he)) c (mem_append_left _ hc)
    have hb := hstep _ _ _ hbs (fun e he => hmono _ he) b (by simp)
    rw [foldl_append]
    exact (hbs.trans hb).congr (fun e => hlast fun c => off c e) fun e => hlast fun c => on c e

section Pairs

variable {dps : Datapaths} {src dst : DPID} {pairs : List (PortNo × PortNo)}

/-- The loop that looks for the fastest link never loses speed, and ends with a link it went
through unless it found none faster than the one it began with. -/
theorem Datapaths.foldl_faster (dps : Datapaths) (src : DPID) (pairs : List (PortNo × PortNo))
    (best : ℤ × (PortNo × PortNo)) :
    best.1 ≤ (pairs.foldl (dps.faster src) best).1 ∧
      (pairs.foldl (dps.faster src) best = best ∨ (pairs.foldl (dps.faster src) best).2 ∈ pairs) ∧
      ∀ pair ∈ pairs, ∀ speed : ℕ, (dps.port src pair.1).bind Port.speed = some speed →
        (speed : ℤ) ≤ (pairs.foldl (dps.faster src) best).1 := by
  induction pairs generalizing best with
  | nil => exact ⟨le_refl _, .inl rfl, nofun⟩
  | cons pair pairs ih =>
    rw [foldl_cons]
    obtain ⟨hle, hmem, hmax⟩ := ih (dps.faster src best pair)
    have hfaster : best.1 ≤ (dps.faster src best pair).1 ∧
        (dps.faster src best pair = best ∨ (dps.faster src best pair).2 = pair) ∧
        ∀ speed : ℕ, (dps.port src pair.1).bind Port.speed = some speed →
          (speed : ℤ) ≤ (dps.faster src best pair).1 := by
      unfold faster
      split
      · rename_i speed hspeed
        rw [hspeed]
        split_ifs with hgt
        · refine ⟨hgt.le, .inr rfl, fun s hs => ?_⟩
          rw [Option.some.inj hs]
        · refine ⟨le_refl _, .inl rfl, fun s hs => ?_⟩
          rw [← Option.some.inj hs]
          exact not_lt.1 hgt
      · rename_i hnone
        rw [hnone]
        exact ⟨le_refl _, .inl rfl, nofun⟩
    refine ⟨hfaster.1.trans hle, ?_, ?_⟩
    · rcases hmem with hmem | hmem
      · rw [hmem]
        rcases hfaster.2.1 with h | h
        · exact .inl h
        · exact .inr (mem_cons.2 (.inl h))
      · exact .inr (mem_cons_of_mem _ hmem)
    · intro q hq speed hspeed
      rcases mem_cons.1 hq with rfl | hq
      · exact (hfaster.2.2 speed hspeed).trans hle
      · exact hmax q hq speed hspeed

/-- **A fastest link is found.** -/
theorem Datapaths.fastest_mem (dps : Datapaths) (src : DPID) (hne : pairs ≠ [])
    (hspeed : ∀ pair ∈ pairs, ∃ speed, (dps.port src pair.1).bind Port.speed = some speed) :
    (dps.fastest src pairs).2 ∈ pairs := by
  obtain ⟨-, hmem, hmax⟩ := foldl_faster dps src pairs (-1, (-1, -1))
  refine hmem.resolve_left fun hstart => ?_
  obtain ⟨pair, hpair⟩ := exists_mem_of_ne_nil pairs hne
  obtain ⟨speed, hs⟩ := hspeed pair hpair
  have := hmax pair hpair speed hs
  rw [hstart] at this
  omega

section

variable (hknown : ∀ pair ∈ pairs, dps.known (src, pair.1) ∧ dps.known (dst, pair.2))
include hknown

/-- **All links but the fastest are disabled at the destination**, and that one is kept. -/
theorem Datapaths.marked_keepPair {best : PortNo × PortNo} :
    Marked dps (pairs.foldl (keepPair src dst best) dps)
      (fun e => ∃ pair ∈ pairs, pair ≠ best ∧ e = (dst, pair.2))
      fun e => ∃ pair ∈ pairs, pair = best ∧ (e = (src, pair.1) ∨ e = (dst, pair.2)) := by
  refine Marked.foldl fun dps' off' on' hm _ pair hpair => ?_
  obtain ⟨hsrc, hdst⟩ := hknown pair hpair
  rw [← hm.same.known_iff] at hsrc hdst
  unfold keepPair
  split
  · rename_i hne
    obtain ⟨dps'', hmod, hm'⟩ := marked_disable hdst
    rw [hmod, Option.getD_some]
    exact hm'.congr (fun e => (and_iff_right hne).symm)
      fun e => (iff_of_false (fun h => h) fun h => hne h.1)
  · rename_i heq
    rw [not_not] at heq
    obtain ⟨dps1, hmod1, hm1⟩ := marked_setKeep hsrc
    obtain ⟨dps2, hmod2, hm2⟩ := marked_setKeep (hm1.same.known_iff.2 hdst)
    rw [hmod1]
    simp only
    rw [hmod2, Option.getD_some]
    refine (hm1.trans hm2).congr (fun e => ?_) fun e => (and_iff_right heq).symm
    simp [heq]

/-- **The links between switches that have been seen are disabled at both ends**, where they are
not to be kept. -/
theorem Datapaths.marked_disablePair :
    Marked dps (pairs.foldl (disablePair src dst) dps)
      (fun e => ∃ pair ∈ pairs, (e = (src, pair.1) ∨ e = (dst, pair.2)) ∧ ¬ dps.kept e)
      fun _ => False := by
  have hloop : Marked dps (pairs.foldl (disablePair src dst) dps)
      (fun e => ∃ pair ∈ pairs, (e = (src, pair.1) ∨ e = (dst, pair.2)) ∧ ¬ dps.kept e)
      fun _ => ∃ pair ∈ pairs, False := by
    refine Marked.foldl fun dps' off' on' hm hon pair hpair => ?_
    obtain ⟨hsrc, hdst⟩ := hknown pair hpair
    rw [← hm.same.known_iff] at hsrc hdst
    have hkept : ∀ e, dps'.kept e ↔ dps.kept e := fun e => by
      rw [hm.kept_iff]
      exact or_iff_left fun he => (hon e he).elim fun _ h => h.2
    -- sorting the ports of a link from a switch to itself gives the same two ends
    have hends : ∃ ports : PortNo × PortNo,
        (if src = dst ∧ pair.1 > pair.2 then pair.swap else pair) = ports ∧
        dps'.known (src, ports.1) ∧ dps'.known (dst, ports.2) ∧
        ∀ e : End, (e = (src, ports.1) ∨ e = (dst, ports.2)) ↔
          e = (src, pair.1) ∨ e = (dst, pair.2) := by
      split_ifs with hself
      · obtain ⟨rfl, -⟩ := hself
        exact ⟨_, rfl, hdst, hsrc, fun e => or_comm⟩
      · exact ⟨_, rfl, hsrc, hdst, fun e => Iff.rfl⟩
    obtain ⟨ports, heq, hsrc, hdst, hends⟩ := hends
    unfold disablePair
    simp only [heq]
    obtain ⟨dps1, hmod1, hm1⟩ := marked_disableUnkept hdst
    obtain ⟨dps2, hmod2, hm2⟩ := marked_disableUnkept (hm1.same.known_iff.2 hsrc)
    rw [hmod1]
    simp only
    rw [hmod2, Option.getD_some]
    refine (hm1.trans hm2).congr (fun e => ?_) fun e => or_self_iff
    rw [hm1.kept_iff, or_iff_left (fun h => h), hkept, ← or_and_right, or_comm, hends]
  exact hloop.congr (fun _ => Iff.rfl) fun _ => iff_of_false (fun ⟨_, _, h⟩ => h) fun h => h

end

end Pairs

end NoxClassic.SpanningTree
