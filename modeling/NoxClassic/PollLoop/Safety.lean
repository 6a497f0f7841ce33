/-
# One polling thread, and no lost place in the list

The invariant has three parts that know little of each other.  `Roles` is about
the threads: those that act for the loop are the polling thread, and the dormant
ones are those in the queue.  `Nodes` is about the list and the places the threads
hold in it: a reference count is the number of threads that hold the node, and a
node without a pollable is held by some.  `Logged` compares the list with what
happened: which pollables were added and removed, and that each call of `poll()`
and `wait()` was of one that was in the list.

`hand_over_safe` puts them together for every run of every number of threads.
-/

import NoxClassic.PollLoop.Model
import Mathlib.Data.Finset.Card

namespace NoxClassic.PollLoop

open Function List Option State Bool

variable {P : Type} {n : ℕ}

/-! ### The list -/

variable {f : PollableRef P → PollableRef P} {p : P} {newer older : List (Event P)} {node : ℕ}
    {e : Event P}

section List

variable {l : List (PollableRef P)} {i : ℕ}

theorem nodes_modify (l : List (PollableRef P)) (i : ℕ)
    (hf : ∀ ref, (f ref).node = ref.node) : nodes (modify l i f) = nodes l := by
  rw [nodes, modify, List.map_map]
  refine List.map_congr_left fun ref _ => ?_
  dsimp only [Function.comp_apply]
  split
  · exact hf ref
  · rfl

variable {ref : PollableRef P}

theorem mem_modify (h : ref ∈ modify l i f) :
    (∃ ref0 ∈ l, ref0.node = i ∧ f ref0 = ref) ∨ (ref ∈ l ∧ ref.node ≠ i) := by
  obtain ⟨ref0, hmem, rfl⟩ := mem_map.1 h
  by_cases hi : ref0.node = i
  · exact .inl ⟨ref0, hmem, hi, (if_pos hi).symm⟩
  · rw [if_neg hi]
    exact .inr ⟨hmem, hi⟩

theorem mem_erase : ref ∈ erase l i ↔ ref ∈ l ∧ ref.node ≠ i := by
  rw [erase, mem_filter, decide_eq_true_eq]

theorem mem_nodes : i ∈ nodes l ↔ ∃ ref ∈ l, ref.node = i := mem_map

theorem deref_eq_some (h : deref l i = some ref) : ref ∈ l ∧ ref.node = i :=
  ⟨mem_of_find?_eq_some h, by simpa using find?_some h⟩

theorem exists_deref (h : i ∈ nodes l) : ∃ ref, deref l i = some ref := by
  obtain ⟨ref, href, hi⟩ := mem_nodes.1 h
  exact isSome_iff_exists.1 (find?_isSome.2 ⟨ref, href, decide_eq_true hi⟩)

/-- Nodes with one number are one. -/
theorem eq_of_node_eq (h : (nodes l).Nodup) {ref' : PollableRef P} (href : ref ∈ l)
    (href' : ref' ∈ l) (hnode : ref.node = ref'.node) : ref = ref' :=
  inj_on_of_nodup_map h href href' hnode

variable {j : ℕ}

theorem succ_mem (h : succ l i = some j) : j ∈ nodes l := by
  have := mem_of_mem_tail (mem_of_mem_head? h)
  exact (dropWhile_sublist _).subset this

/-- The node after `i` is another one. -/
theorem succ_ne (hn : (nodes l).Nodup) (h : succ l i = some j) : j ≠ i := by
  rintro rfl
  rw [succ] at h
  cases hd : (nodes l).dropWhile (· ≠ j) with
  | nil =>
    rw [hd] at h
    nomatch h
  | cons a as =>
    have ha : a = j := by
      have := head?_dropWhile_not (fun x => decide (x ≠ j)) (nodes l)
      rw [hd] at this
      simpa using this
    have hnd : (a :: as).Nodup := hd ▸ hn.sublist (dropWhile_sublist _)
    rw [hd, tail_cons] at h
    exact (nodup_cons.1 hnd).1 (ha ▸ mem_of_mem_head? h)

end List

/-! ### The places the threads hold -/

/-- The node whose `poll()` or `wait()` the thread is in. -/
def Pc.node? : Pc → Option ℕ
  | .polling i _ _ | .inWait i => some i
  | _ => none

/-- The iterator of a thread at the head of one of its loops. -/
def Pc.iter? : Pc → Option ℕ
  | .servicing i _ | .waitLoop i => i
  | _ => none

/-- The threads that hold the node. -/
def holders (held : Fin (n + 1) → Option ℕ) (i : ℕ) : Finset (Fin (n + 1)) :=
  Finset.univ.filter fun t => held t = some i

section Holders

variable {held : Fin (n + 1) → Option ℕ} {t : Fin (n + 1)} {i : ℕ}

theorem mem_holders : t ∈ holders held i ↔ held t = some i := by
  rw [holders, Finset.mem_filter, and_iff_right (Finset.mem_univ t)]

theorem holders_take (held : Fin (n + 1) → Option ℕ) (t : Fin (n + 1)) (i : ℕ) :
    holders (update held t (some i)) i = insert t (holders held i) := by
  ext u
  by_cases hu : u = t <;> simp [mem_holders, hu]

theorem holders_leave (held : Fin (n + 1) → Option ℕ) (t : Fin (n + 1)) (i : ℕ) :
    holders (update held t none) i = (holders held i).erase t := by
  ext u
  by_cases hu : u = t <;> simp [mem_holders, hu]

theorem holders_update_ne {o : Option ℕ} (ho : o ≠ some i) (ht : held t ≠ some i) :
    holders (update held t o) i = holders held i := by
  ext u
  by_cases hu : u = t <;> simp [mem_holders, hu, ho, ht]

end Holders

/-- The list, with the places `held` by the threads. -/
structure Nodes (l : List (PollableRef P)) (pos : P → ℕ) (next : ℕ)
    (held : Fin (n + 1) → Option ℕ) : Prop where
  nodup : (nodes l).Nodup
  below : ∀ ref ∈ l, ref.node < next
  count : ∀ ref ∈ l, ref.refCnt = (holders held ref.node).card
  dead : ∀ ref ∈ l, ref.pollable = none → 0 < ref.refCnt
  held : ∀ t i, held t = some i → i ∈ nodes l
  pos : ∀ ref ∈ l, ∀ p, ref.pollable = some p → pos p = ref.node

namespace Nodes

variable {l l' : List (PollableRef P)} {pos : P → ℕ} {next : ℕ}
  {held : Fin (n + 1) → Option ℕ} {t : Fin (n + 1)} {i : ℕ} {ref : PollableRef P}

theorem perm (h : Nodes l pos next held) (hl : l'.Perm l) : Nodes l' pos next held where
  nodup := (hl.map PollableRef.node).nodup_iff.2 h.nodup
  below := fun ref href => h.below ref (hl.mem_iff.1 href)
  count := fun ref href => h.count ref (hl.mem_iff.1 href)
  dead := fun ref href => h.dead ref (hl.mem_iff.1 href)
  held := fun t i ht => (hl.map PollableRef.node).mem_iff.2 (h.held t i ht)
  pos := fun ref href => h.pos ref (hl.mem_iff.1 href)

variable {held' : Fin (n + 1) → Option ℕ}

section

variable (h : Nodes l pos next held)
include h

/-- The node `i` is changed by `f`, and the threads that hold it change. -/
theorem modify
    (hnode : ∀ ref, (f ref).node = ref.node)
    (hpos : ∀ ref p, (f ref).pollable = some p → ref.pollable = some p)
    (hother : ∀ j, j ≠ i → holders held' j = holders held j)
    (hheld : ∀ t j, held' t = some j → j ∈ nodes l)
    (hself : ∀ ref ∈ l, ref.node = i → (f ref).refCnt = (holders held' i).card ∧
      ((f ref).pollable = none → 0 < (f ref).refCnt)) :
    Nodes (modify l i f) pos next held' := by
  have hnodes := nodes_modify l i hnode
  refine ⟨hnodes ▸ h.nodup, ?_, ?_, ?_, fun u j hu => hnodes ▸ hheld u j hu, ?_⟩ <;>
    intro ref href <;> rcases mem_modify href with ⟨ref, hmem, hi, rfl⟩ | ⟨hmem, hne⟩
  · exact hnode ref ▸ h.below ref hmem
  · exact h.below ref hmem
  · rw [hnode, hi]
    exact (hself ref hmem hi).1
  · exact hother _ hne ▸ h.count ref hmem
  · exact (hself ref hmem hi).2
  · exact h.dead ref hmem
  · exact fun p hp => hnode ref ▸ h.pos ref hmem p (hpos ref p hp)
  · exact h.pos ref hmem

/-- The node `i`, which no thread holds any more, is erased. -/
theorem erase (hother : ∀ j, j ≠ i → holders held' j = holders held j)
    (hheld : ∀ t j, held' t = some j → j ∈ nodes l) (hzero : (holders held' i).card = 0) :
    Nodes (erase l i) pos next held' := by
  refine ⟨h.nodup.sublist (filter_sublist.map _), fun ref href => h.below ref (mem_erase.1 href).1,
    fun ref href => ?_, fun ref href => h.dead ref (mem_erase.1 href).1, fun u j hu => ?_,
    fun ref href => h.pos ref (mem_erase.1 href).1⟩
  · obtain ⟨hmem, hne⟩ := mem_erase.1 href
    exact hother _ hne ▸ h.count ref hmem
  · obtain ⟨ref, hmem, rfl⟩ := mem_nodes.1 (hheld u j hu)
    refine mem_nodes.2 ⟨ref, mem_erase.2 ⟨hmem, fun hi => ?_⟩, rfl⟩
    have hu' : u ∈ holders held' i := mem_holders.2 (hi ▸ hu)
    simp [Finset.card_eq_zero.1 hzero] at hu'

/-- A thread takes a reference. -/
theorem take (hi : i ∈ nodes l) (ht : held t = none) :
    Nodes (PollLoop.modify l i fun ref => { ref with refCnt := ref.refCnt + 1 }) pos next
      (update held t (some i)) := by
  refine h.modify (fun _ => rfl) (fun _ _ hp => hp) (fun j hj => ?_) ?_ fun ref hmem hnode => ?_
  · exact holders_update_ne (by simpa using Ne.symm hj) (by simp [ht])
  · refine (forall_update_iff held fun _ o => ∀ j, o = some j → j ∈ nodes l).2
      ⟨fun j hj => ?_, fun u _ => h.held u⟩
    exact some.inj hj ▸ hi
  · have hnot : t ∉ holders held i := by simp [mem_holders, ht]
    rw [holders_take, Finset.card_insert_of_notMem hnot, h.count ref hmem, hnode]
    exact ⟨rfl, fun _ => Nat.succ_pos _⟩

/-- A thread gives its reference back; the node goes with the last reference to it when its
pollable is gone. -/
theorem leave (ht : held t = some i) (href : deref l i = some ref) :
    Nodes (if ref.refCnt = 1 ∧ ref.pollable.isNone then PollLoop.erase l i
      else PollLoop.modify l i fun ref => { ref with refCnt := ref.refCnt - 1 }) pos next
      (update held t none) := by
  obtain ⟨hmem, hnode⟩ := deref_eq_some href
  have hin : t ∈ holders held i := mem_holders.2 ht
  have hcount : ref.refCnt = (holders held i).card := hnode ▸ h.count ref hmem
  have hpos : 0 < (holders held i).card := Finset.card_pos.2 ⟨t, hin⟩
  have hcard : (holders (update held t none) i).card = (holders held i).card - 1 := by
    rw [holders_leave, Finset.card_erase_of_mem hin]
  have hother : ∀ j, j ≠ i → holders (update held t none) j = holders held j :=
    fun j hj => holders_update_ne nofun (by simpa [ht] using Ne.symm hj)
  -- the threads that are left
  have hheld := (forall_update_iff held fun _ o => ∀ j, o = some j → j ∈ nodes l).2
    (show (∀ j, none = some j → j ∈ nodes l) ∧ ∀ u, u ≠ t → _ from ⟨nofun, fun u _ => h.held u⟩)
  split_ifs with hlast
  · exact h.erase hother hheld (by omega)
  refine h.modify (fun _ => rfl) (fun _ _ hp => hp) hother hheld fun ref' hmem' hi => ?_
  obtain rfl := eq_of_node_eq h.nodup hmem' hmem (hi.trans hnode.symm)
  refine ⟨by dsimp only; omega, fun hdead => ?_⟩
  have : ¬ ref'.refCnt = 1 := fun hone => hlast ⟨hone, isNone_iff_eq_none.2 hdead⟩
  dsimp only
  omega

theorem add [DecidableEq P] (hp : ∀ ref ∈ l, ref.pollable ≠ some p) :
    Nodes (l ++ [⟨next, some p, 0⟩]) (update pos p next) (next + 1) held := by
  have hnot : next ∉ nodes l := by
    intro hmem
    obtain ⟨ref, hmem, hnode⟩ := mem_nodes.1 hmem
    have := h.below ref hmem
    omega
  have hnodes : nodes (l ++ [⟨next, some p, 0⟩]) = nodes l ++ [next] := map_append
  have hall {q : PollableRef P → Prop} (hl : ∀ ref ∈ l, q ref) (hnew : q ⟨next, some p, 0⟩) :
      ∀ ref ∈ l ++ [⟨next, some p, 0⟩], q ref :=
    forall_mem_append.2 ⟨hl, forall_mem_singleton.2 hnew⟩
  refine ⟨?_, hall (fun ref href => (h.below ref href).trans (Nat.lt_succ_self _))
    (Nat.lt_succ_self _), hall h.count (.symm ?_), hall h.dead nofun, fun u j hu => ?_,
    hall (fun ref href q hq => ?_) fun q hq => ?_⟩
  · rw [hnodes]
    refine nodup_append.2 ⟨h.nodup, nodup_singleton _, fun a ha b hb => ?_⟩
    rw [mem_singleton.1 hb]
    rintro rfl
    exact hnot ha
  · rw [Finset.card_eq_zero, Finset.eq_empty_iff_forall_notMem]
    intro u hu
    exact hnot (h.held u next (mem_holders.1 hu))
  · rw [hnodes]
    exact mem_append_left _ (h.held u j hu)
  · have hqp : q ≠ p := fun hqp => hp ref href (hqp ▸ hq)
    rw [update_of_ne hqp]
    exact h.pos ref href q hq
  · cases hq
    exact update_self _ _ _

theorem remove (href : deref l i = some ref) :
    Nodes (if ref.refCnt = 0 then PollLoop.erase l i
      else PollLoop.modify l i fun ref => { ref with pollable := none }) pos next held := by
  obtain ⟨hmem, hnode⟩ := deref_eq_some href
  have hcount : ref.refCnt = (holders held i).card := hnode ▸ h.count ref hmem
  split_ifs with hzero
  · exact h.erase (fun _ _ => rfl) h.held (hcount ▸ hzero)
  · refine h.modify (fun _ => rfl) (fun _ _ => nofun) (fun _ _ => rfl) h.held
      fun ref' hmem' hi => ?_
    obtain rfl := eq_of_node_eq h.nodup hmem' hmem (hi.trans hnode.symm)
    exact ⟨hcount, fun _ => Nat.pos_of_ne_zero hzero⟩

end

end Nodes

/-! ### What happened -/

/-- By what happened, the pollable is in the list: it was added after it was last removed. -/
def Live (p : P) : List (Event P) → Prop
  | [] => False
  | .add q _ :: log => q = p ∨ Live p log
  | .remove q _ :: log => q ≠ p ∧ Live p log
  | .poll _ :: log | .wait _ :: log => Live p log

/-- Every call was of a pollable in the list. -/
def Fair : List (Event P) → Prop
  | [] => True
  | .poll p :: log | .wait p :: log => Live p log ∧ Fair log
  | .add _ _ :: log | .remove _ _ :: log => Fair log

/-- A pollable that was removed, and not added since, is not in the list. -/
theorem not_live (h : ∀ j, .add p j ∉ newer) : ¬ Live p (newer ++ .remove p node :: older) := by
  induction newer with
  | nil => exact fun hlive => hlive.1 rfl
  | cons e newer ih =>
    have hrest : ∀ j, Event.add p j ∉ newer := fun j hj => h j (mem_cons_of_mem e hj)
    cases e with
    | add q j =>
      rintro (rfl | hlive)
      · exact h j mem_cons_self
      · exact ih hrest hlive
    | remove q j => exact fun hlive => ih hrest hlive.2
    | poll | wait => exact ih hrest

/-- **No call after a removal**, until the pollable is added again. -/
theorem Fair.not_called
    (h : Fair (newer ++ .remove p node :: older)) (hadd : ∀ j, .add p j ∉ newer) :
    .poll p ∉ newer ∧ .wait p ∉ newer := by
  induction newer with
  | nil => exact ⟨not_mem_nil, not_mem_nil⟩
  | cons e newer ih =>
    have hrest : ∀ j, Event.add p j ∉ newer := fun j hj => hadd j (mem_cons_of_mem e hj)
    -- the newest event is not a call of `p`
    have hnew : Event.poll p ≠ e ∧ Event.wait p ≠ e := by
      constructor <;> rintro rfl <;> exact not_live hrest h.1
    have hfair : Fair (newer ++ .remove p node :: older) := by
      cases e with
      | add | remove => exact h
      | poll | wait => exact h.2
    obtain ⟨hpoll, hwait⟩ := ih hfair hrest
    exact ⟨not_mem_cons_of_ne_of_not_mem hnew.1 hpoll, not_mem_cons_of_ne_of_not_mem hnew.2 hwait⟩

/-- The list, as it follows from what happened. -/
@[mk_iff] structure Logged (l : List (PollableRef P)) (next : ℕ) (log : List (Event P)) : Prop where
  below : ∀ p i, .add p i ∈ log → i < next
  removed_below : ∀ p i, .remove p i ∈ log → i < next
  added : ∀ ref ∈ l, ∃ p, .add p ref.node ∈ log
  dead : ∀ ref ∈ l, ∀ p, .remove p ref.node ∈ log → ref.pollable = none
  gone : ∀ ref ∈ l, ref.pollable = none → ∃ p, .remove p ref.node ∈ log
  kept : ∀ p i, .add p i ∈ log → (∀ q, .remove q i ∉ log) → ∃ ref ∈ l, ref.node = i
  live : ∀ p, (∃ ref ∈ l, ref.pollable = some p) ↔ Live p log
  fair : Fair log

namespace Logged

variable {l l' : List (PollableRef P)} {next : ℕ} {log : List (Event P)}

section

variable (h : Logged l next log)
include h

/-- Reference counts, the order of the list and nodes without a pollable do not matter. -/
theorem mono
    (hsub : ∀ ref' ∈ l', ∃ ref ∈ l, ref.node = ref'.node ∧ ref.pollable = ref'.pollable)
    (hsup : ∀ ref ∈ l, ref.pollable ≠ none →
      ∃ ref' ∈ l', ref'.node = ref.node ∧ ref'.pollable = ref.pollable) :
    Logged l' next log where
  below := h.below
  removed_below := h.removed_below
  added := fun ref' href' => by
    obtain ⟨ref, href, hnode, -⟩ := hsub ref' href'
    exact hnode ▸ h.added ref href
  dead := fun ref' href' p hp => by
    obtain ⟨ref, href, hnode, hpoll⟩ := hsub ref' href'
    exact hpoll ▸ h.dead ref href p (hnode ▸ hp)
  gone := fun ref' href' hnone => by
    obtain ⟨ref, href, hnode, hpoll⟩ := hsub ref' href'
    exact hnode ▸ h.gone ref href (hpoll.trans hnone)
  kept := fun p i hadd hrem => by
    obtain ⟨ref, href, hnode⟩ := h.kept p i hadd hrem
    have hsome : ref.pollable ≠ none := by
      intro hnone
      obtain ⟨q, hq⟩ := h.gone ref href hnone
      exact hrem q (hnode ▸ hq)
    obtain ⟨ref', href', hnode', -⟩ := hsup ref href hsome
    exact ⟨ref', href', hnode'.trans hnode⟩
  live := fun p => by
    rw [← h.live p]
    constructor
    · rintro ⟨ref', href', hp⟩
      obtain ⟨ref, href, -, hpoll⟩ := hsub ref' href'
      exact ⟨ref, href, hpoll.trans hp⟩
    · rintro ⟨ref, href, hp⟩
      obtain ⟨ref', href', -, hpoll⟩ := hsup ref href (hp ▸ some_ne_none p)
      exact ⟨ref', href', hpoll.trans hp⟩
  fair := h.fair

theorem modify (i : ℕ)
    (hf : ∀ ref, (f ref).node = ref.node ∧ (f ref).pollable = ref.pollable) :
    Logged (modify l i f) next log := by
  refine h.mono (fun ref' href' => ?_) fun ref href _ => ⟨_, mem_map_of_mem href, ?_⟩
  · rcases mem_modify href' with ⟨ref, hmem, -, rfl⟩ | ⟨hmem, -⟩
    · exact ⟨ref, hmem, (hf ref).1.symm, (hf ref).2.symm⟩
    · exact ⟨ref', hmem, rfl, rfl⟩
  · split
    · exact hf ref
    · exact ⟨rfl, rfl⟩

/-- A call of a pollable in the list. -/
theorem call {ref : PollableRef P} (href : ref ∈ l)
    (hp : ref.pollable = some p) (he : e = .poll p ∨ e = .wait p) : Logged l next (e :: log) := by
  have hlive : Live p log := (h.live p).1 ⟨ref, href, hp⟩
  have hadd : ∀ q i, .add q i ∈ e :: log ↔ .add q i ∈ log := by
    rcases he with rfl | rfl <;> simp
  have hrem : ∀ q i, .remove q i ∈ e :: log ↔ .remove q i ∈ log := by
    rcases he with rfl | rfl <;> simp
  refine ⟨by simpa only [hadd] using h.below, by simpa only [hrem] using h.removed_below,
    by simpa only [hadd] using h.added, by simpa only [hrem] using h.dead,
    by simpa only [hrem] using h.gone, by simpa only [hadd, hrem] using h.kept, fun q => ?_, ?_⟩
  · rw [h.live q]
    rcases he with rfl | rfl <;> exact Iff.rfl
  · rcases he with rfl | rfl <;> exact ⟨hlive, h.fair⟩

theorem add (p : P) :
    Logged (l ++ [⟨next, some p, 0⟩]) (next + 1) (.add p next :: log) := by
  have hmem (ref : PollableRef P) : ref ∈ l ++ [⟨next, some p, 0⟩] ↔
      ref ∈ l ∨ ref = ⟨next, some p, 0⟩ := by simp
  have hadd (q : P) (i : ℕ) : .add q i ∈ .add p next :: log ↔
      (q = p ∧ i = next) ∨ .add q i ∈ log := by simp
  have hrem (q : P) (i : ℕ) : .remove q i ∈ .add p next :: log ↔ .remove q i ∈ log := by simp
  rw [logged_iff]
  simp only [hadd, hrem, hmem]
  refine ⟨?_, fun q i hq => ?_, ?_, ?_, ?_, ?_, fun q => ?_, h.fair⟩
  · rintro q i (⟨-, rfl⟩ | hq)
    · omega
    · exact (h.below q i hq).trans (Nat.lt_succ_self _)
  · exact (h.removed_below q i hq).trans (Nat.lt_succ_self _)
  · rintro ref (href | rfl)
    · obtain ⟨q, hq⟩ := h.added ref href
      exact ⟨q, .inr hq⟩
    · exact ⟨p, .inl ⟨rfl, rfl⟩⟩
  · rintro ref (href | rfl) q hq
    · exact h.dead ref href q hq
    · exact absurd (h.removed_below q next hq) (Nat.lt_irrefl _)
  · rintro ref (href | rfl) hnone
    · exact h.gone ref href hnone
    · nomatch hnone
  · rintro q i (⟨-, rfl⟩ | hq) hnot
    · exact ⟨_, .inr rfl, rfl⟩
    · obtain ⟨ref, href, hnode⟩ := h.kept q i hq hnot
      exact ⟨ref, .inl href, hnode⟩
  · constructor
    · rintro ⟨ref, href | rfl, hq⟩
      · exact .inr ((h.live q).1 ⟨ref, href, hq⟩)
      · exact .inl (some.inj hq)
    · rintro (rfl | hlive)
      · exact ⟨_, .inr rfl, rfl⟩
      · obtain ⟨ref, href, hq⟩ := (h.live q).2 hlive
        exact ⟨ref, .inl href, hq⟩

/-- The pollable `p` of the node `ref` is removed, with the node or without it. -/
theorem remove (hnodup : (nodes l).Nodup) {ref : PollableRef P}
    (href : ref ∈ l) (hp : ref.pollable = some p)
    (huniq : ∀ ref' ∈ l, ref'.pollable = some p → ref'.node = ref.node) (hbelow : ref.node < next)
    (hsub : ∀ ref' ∈ l', ref'.node ≠ ref.node → ref' ∈ l)
    (hsup : ∀ ref' ∈ l, ref'.node ≠ ref.node → ref' ∈ l')
    (hdead : ∀ ref' ∈ l', ref'.node = ref.node → ref'.pollable = none) :
    Logged l' next (.remove p ref.node :: log) := by
  have hadd (q : P) (i : ℕ) : .add q i ∈ .remove p ref.node :: log ↔ .add q i ∈ log := by simp
  have hrem (q : P) (i : ℕ) : .remove q i ∈ .remove p ref.node :: log ↔
      (q = p ∧ i = ref.node) ∨ .remove q i ∈ log := by simp
  rw [logged_iff]
  simp only [hadd, hrem]
  refine ⟨h.below, ?_, fun ref' href' => ?_, ?_, fun ref' href' hnone => ?_, ?_, ?_, h.fair⟩
  · rintro q i (⟨-, rfl⟩ | hq)
    · exact hbelow
    · exact h.removed_below q i hq
  · by_cases hnode : ref'.node = ref.node
    · exact hnode ▸ h.added ref href
    · exact h.added ref' (hsub ref' href' hnode)
  · rintro ref' href' q hq
    by_cases hnode : ref'.node = ref.node
    · exact hdead ref' href' hnode
    · exact h.dead ref' (hsub ref' href' hnode) q (hq.resolve_left fun hq => hnode hq.2)
  · by_cases hnode : ref'.node = ref.node
    · exact ⟨p, .inl ⟨rfl, hnode⟩⟩
    · obtain ⟨q, hq⟩ := h.gone ref' (hsub ref' href' hnode) hnone
      exact ⟨q, .inr hq⟩
  · intro q i hq hnot
    obtain ⟨ref', href', hnode⟩ := h.kept q i hq fun r hr => hnot r (.inr hr)
    exact ⟨ref', hsup ref' href' fun heq => hnot p (.inl ⟨rfl, hnode ▸ heq⟩), hnode⟩
  · intro q
    constructor
    · rintro ⟨ref', href', hq⟩
      have hne : ref'.node ≠ ref.node := fun hnode =>
        nomatch hq.symm.trans (hdead ref' href' hnode)
      have hmem := hsub ref' href' hne
      refine ⟨?_, (h.live q).1 ⟨ref', hmem, hq⟩⟩
      rintro rfl
      exact hne (huniq ref' hmem hq)
    · rintro ⟨hpq, hlive⟩
      obtain ⟨ref', href', hq⟩ := (h.live q).2 hlive
      refine ⟨ref', hsup ref' href' fun hnode => hpq ?_, hq⟩
      obtain rfl := eq_of_node_eq hnodup href' href hnode
      exact some.inj (hp.symm.trans hq)

end

end Logged

/-! ### The threads -/

/-- The thread acts for the loop: it is the one that calls `poll()` and `wait()`, or will be when
it is resumed.  One whose `poll()` has blocked does not any more. -/
def Pc.acts : Pc → Bool
  | .woken | .servicing _ _ | .polling _ _ true | .yielding | .waitLoop _ | .inWait _
  | .waiting => true
  | .outside | .dormant | .polling _ _ false => false

/-- Only a running thread can be here. -/
def Pc.runs : Pc → Bool
  | .servicing _ _ | .polling _ _ true | .waitLoop _ | .inWait _ => true
  | _ => false

/-- The threads, as they share the work. -/
structure Roles (pc : Fin (n + 1) → Pc) (pollingThread : Option (Fin (n + 1)))
    (dormantThreads : List (Fin (n + 1))) (running : Option (Fin (n + 1))) : Prop where
  acts : ∀ t, (pc t).acts = true ↔ pollingThread = some t
  dormant : ∀ t, t ∈ dormantThreads ↔ pc t = .dormant
  nodup : dormantThreads.Nodup
  runs : ∀ t, (pc t).runs = true → running = some t
  outside : pc (Fin.last n) = .outside → running = none ∧
    ∀ t, t ≠ Fin.last n → pc t = .dormant

namespace Roles

variable {pc : Fin (n + 1) → Pc} {pollingThread pollingThread' : Option (Fin (n + 1))}
  {dormantThreads dormantThreads' : List (Fin (n + 1))} {running running' : Option (Fin (n + 1))}
  {t : Fin (n + 1)} {c : Pc}

/-- A thread goes elsewhere, and only its own part changes. -/
theorem move (h : Roles pc pollingThread dormantThreads running)
    (hlast : pc (Fin.last n) = .outside → t = Fin.last n)
    (hto : c ≠ .outside) (hrun : running = none ∨ running = some t)
    (hself : c.acts = true ↔ pollingThread' = some t)
    (hother : ∀ u, u ≠ t → (pollingThread' = some u ↔ pollingThread = some u))
    (hdormant : t ∈ dormantThreads' ↔ c = .dormant)
    (hmem : ∀ u, u ≠ t → (u ∈ dormantThreads' ↔ u ∈ dormantThreads))
    (hnodup : dormantThreads'.Nodup) (hruns : c.runs = true → running' = some t) :
    Roles (update pc t c) pollingThread' dormantThreads' running' where
  acts := (forall_update_iff pc fun u c => c.acts = true ↔ pollingThread' = some u).2
    ⟨hself, fun u hu => (h.acts u).trans (hother u hu).symm⟩
  dormant := (forall_update_iff pc fun u c => u ∈ dormantThreads' ↔ c = .dormant).2
    ⟨hdormant, fun u hu => (hmem u hu).trans (h.dormant u)⟩
  nodup := hnodup
  runs := (forall_update_iff pc fun u c => c.runs = true → running' = some u).2
    ⟨hruns, fun u hu hu' => by simp_all [h.runs u hu']⟩
  outside := fun hl => by
    rw [update_apply] at hl
    split_ifs at hl with ht
    · exact absurd hl hto
    · exact absurd (hlast hl).symm ht

section

variable (h : Roles pc pollingThread dormantThreads running) (hfrom : pc t ≠ .dormant)
include h hfrom

theorem not_mem : t ∉ dormantThreads := fun hmem => hfrom ((h.dormant t).1 hmem)

theorem last_of_outside (hlast : pc (Fin.last n) = .outside) : t = Fin.last n :=
  of_not_not fun ht => hfrom ((h.outside hlast).2 t ht)

/-- A thread goes elsewhere without becoming dormant. -/
theorem shift (hto : c ≠ .dormant) (hout : c ≠ .outside)
    (hrun : running = none ∨ running = some t) (hself : c.acts = true ↔ pollingThread' = some t)
    (hother : ∀ u, u ≠ t → (pollingThread' = some u ↔ pollingThread = some u))
    (hruns : c.runs = true → running' = some t) :
    Roles (update pc t c) pollingThread' dormantThreads running' :=
  h.move (h.last_of_outside hfrom) hout hrun hself hother
    (iff_of_false (h.not_mem hfrom) hto) (fun _ _ => Iff.rfl) h.nodup hruns

/-- A thread goes elsewhere without a change of roles. -/
theorem goto (hto : c ≠ .dormant) (hout : c ≠ .outside) (hacts : c.acts = (pc t).acts)
    (hruns : c.runs = true → running' = some t) (hrun : running = none ∨ running = some t) :
    Roles (update pc t c) pollingThread dormantThreads running' :=
  h.shift hfrom hto hout hrun (hacts ▸ h.acts t) (fun _ _ => Iff.rfl) hruns

end

/-- A thread whose `poll()` blocked finds another polling thread, and becomes dormant. -/
theorem sleep (h : Roles pc pollingThread dormantThreads (some t)) (hfrom : pc t ≠ .dormant)
    (hne : pollingThread ≠ some t) :
    Roles (update pc t .dormant) pollingThread (t :: dormantThreads) none :=
  h.move (h.last_of_outside hfrom) (by decide) (.inr rfl) (iff_of_false false_ne_true hne)
    (fun _ _ => Iff.rfl) (iff_of_true mem_cons_self rfl) (fun u hu => by simp [hu])
    (nodup_cons.2 ⟨h.not_mem hfrom, h.nodup⟩) nofun

/-- The polling thread blocks. -/
theorem retire {i : ℕ} {progress : Bool} (h : Roles pc pollingThread dormantThreads (some t))
    (hpc : pc t = .polling i progress true) :
    Roles (update pc t (.polling i progress false)) none dormantThreads none := by
  have ht : pollingThread = some t := (h.acts t).1 (hpc ▸ rfl)
  refine h.shift (hpc ▸ by simp) (by simp) (by simp) (.inr rfl) (iff_of_false nofun nofun)
    (fun u hu => ?_) nofun
  simp [ht, hu.symm]

/-- A dormant thread takes over. -/
theorem appoint {d : Fin (n + 1)} {ds : List (Fin (n + 1))} (h : Roles pc none (d :: ds) none)
    (hout : pc (Fin.last n) ≠ .outside) : Roles (update pc d .woken) (some d) ds none := by
  obtain ⟨hnot, hnodup⟩ := nodup_cons.1 h.nodup
  exact h.move (fun hlast => absurd hlast hout) nofun (.inl rfl) (iff_of_true rfl rfl)
    (fun u hu => by simp [hu.symm]) (iff_of_false hnot nofun) (fun u hu => by simp [hu]) hnodup
    nofun

end Roles

/-! ### The steps -/

/-- The invariant. -/
structure Inv (s : State P n) : Prop where
  ok : s.ok = true
  roles : Roles s.pc s.pollingThread s.dormantThreads s.running
  list : Nodes s.pollables s.pos s.next fun t => (s.pc t).node?
  iter : ∀ t i, (s.pc t).iter? = some i → i ∈ nodes s.pollables
  logged : Logged s.pollables s.next s.log

/-- The constructor leaves all threads but the last dormant. -/
theorem inv_init (pos : P → ℕ) : Inv (init P n pos) := by
  have hpc : ∀ t : Fin (n + 1), (init P n pos).pc t = .outside ∨
      (init P n pos).pc t = .dormant := fun t => ite_eq_or_eq _ _ _
  have hnode : ∀ t, ((init P n pos).pc t).node? = none := fun t => by
    rcases hpc t with h | h <;> rw [h] <;> rfl
  have hiter : ∀ t, ((init P n pos).pc t).iter? = none := fun t => by
    rcases hpc t with h | h <;> rw [h] <;> rfl
  refine ⟨rfl, ⟨fun t => ?_, fun t => ?_, ?_, fun t ht => ?_,
      fun _ => ⟨rfl, fun t ht => if_neg ht⟩⟩,
    ⟨nodup_nil, nofun, nofun, nofun, fun t i ht => ?_, nofun⟩, fun t i ht => ?_,
    ⟨nofun, nofun, nofun, nofun, nofun, nofun, fun p => ?_, trivial⟩⟩
  · refine iff_of_false ?_ nofun
    rcases hpc t with h | h <;> rw [h] <;> exact false_ne_true
  · show t ∈ ((List.finRange n).map Fin.castSucc).reverse ↔
      (if t = Fin.last n then Pc.outside else .dormant) = .dormant
    rw [List.mem_reverse, List.mem_map]
    induction t using Fin.lastCases with
    | last =>
      rw [if_pos rfl]
      exact iff_of_false (fun ⟨u, _, hu⟩ => (Fin.castSucc_lt_last u).ne hu) (by decide)
    | cast t =>
      rw [if_neg (Fin.castSucc_lt_last t).ne]
      exact iff_of_true ⟨t, mem_finRange t, rfl⟩ rfl
  · exact nodup_reverse.2 ((nodup_finRange n).map (Fin.castSucc_injective n))
  · rcases hpc t with h | h <;> rw [h] at ht <;> nomatch ht
  · nomatch ht.symm.trans (hnode t)
  · nomatch ht.symm.trans (hiter t)
  · exact iff_of_false (fun ⟨_, href, _⟩ => nomatch href) id

/-- The places held after a thread went elsewhere. -/
theorem node?_update (pc : Fin (n + 1) → Pc) (t : Fin (n + 1)) (c : Pc) :
    (fun u => (update pc t c u).node?) = update (fun u => (pc u).node?) t c.node? :=
  funext fun u => apply_update (fun _ c => Pc.node? c) pc t c u

variable {c : Pc}

/-- Only a running thread has an iterator. -/
theorem Pc.runs_of_iter? {i : ℕ} (h : c.iter? = some i) : c.runs = true := by
  cases c <;> first | rfl | nomatch h

variable {pc : Fin (n + 1) → Pc} {pollingThread : Option (Fin (n + 1))}
    {dormantThreads : List (Fin (n + 1))}

/-- No thread is in a loop when none runs. -/
theorem Roles.iter_mem (h : Roles pc pollingThread dormantThreads none) (l : List (PollableRef P))
    (u : Fin (n + 1)) (i : ℕ) (hi : (pc u).iter? = some i) : i ∈ nodes l :=
  nomatch h.runs u (Pc.runs_of_iter? hi)

/-- The iterators after the running thread went elsewhere. -/
theorem Roles.iter_update {t : Fin (n + 1)} {l : List (PollableRef P)}
    (h : Roles (update pc t c) pollingThread dormantThreads (some t))
    (hc : ∀ i, c.iter? = some i → i ∈ nodes l) (u : Fin (n + 1)) (i : ℕ)
    (hi : (update pc t c u).iter? = some i) : i ∈ nodes l := by
  obtain rfl := some.inj (h.runs u (Pc.runs_of_iter? hi))
  rw [update_self] at hi
  exact hc i hi

/-- The running thread `t` holds `o`, whatever `pc` says: it is between two places. -/
structure At (s : State P n) (t : Fin (n + 1)) (o : Option ℕ) : Prop where
  ok : s.ok = true
  roles : Roles s.pc s.pollingThread s.dormantThreads s.running
  running : s.running = some t
  awake : s.pc t ≠ .dormant
  list : Nodes s.pollables s.pos s.next (Function.update (fun u => (s.pc u).node?) t o)
  logged : Logged s.pollables s.next s.log

namespace At

variable {s : State P n} {t : Fin (n + 1)} {o : Option ℕ} {i : ℕ} {c : Pc}

theorem of_inv (h : Inv s) (ht : s.running = some t) (hawake : s.pc t ≠ .dormant)
    (ho : (s.pc t).node? = o) : At s t o := by
  refine ⟨h.ok, h.roles, ht, hawake, ?_, h.logged⟩
  rw [← ho, update_eq_self t fun u => (s.pc u).node?]
  exact h.list

/-- The thread has arrived at `c`. -/
theorem goto (h : At s t o) (ho : c.node? = o) (hto : c ≠ .dormant) (hout : c ≠ .outside)
    (hacts : c.acts = true ↔ s.pollingThread = some t)
    (hiter : ∀ i, c.iter? = some i → i ∈ nodes s.pollables) : Inv (s.goto t c) := by
  have hroles : Roles (update s.pc t c) s.pollingThread s.dormantThreads s.running :=
    h.roles.goto h.awake hto hout (eq_iff_iff.2 (hacts.trans (h.roles.acts t).symm))
      (fun _ => h.running) (.inr h.running)
  refine ⟨h.ok, hroles, ?_, (h.running ▸ hroles).iter_update hiter, h.logged⟩
  show Nodes _ _ _ fun u => (update s.pc t c u).node?
  rw [node?_update, ho]
  exact h.list

/-- The thread stops at `c` with new roles. -/
theorem stop (h : At s t c.node?)
    (hroles : Roles (update s.pc t c) pollingThread dormantThreads none) :
    Inv ({ s with pollingThread, dormantThreads }.stopAt t c) := by
  refine ⟨h.ok, hroles, ?_, hroles.iter_mem s.pollables, h.logged⟩
  show Nodes _ _ _ fun u => (update s.pc t c u).node?
  rw [node?_update]
  exact h.list

/-- The thread has arrived at `c`, and blocks or yields there. -/
theorem stopAt (h : At s t c.node?) (hto : c ≠ .dormant) (hout : c ≠ .outside)
    (hacts : c.acts = true ↔ s.pollingThread = some t) (hruns : c.runs = false) :
    Inv (s.stopAt t c) :=
  h.stop (h.roles.goto h.awake hto hout (eq_iff_iff.2 (hacts.trans (h.roles.acts t).symm))
    (fun hr => nomatch hruns.symm.trans hr) (.inr h.running))

/-- The thread goes back to sleep. -/
theorem sleep (h : At s t none) (hne : s.pollingThread ≠ some t) :
    Inv ({ s with dormantThreads := t :: s.dormantThreads }.stopAt t .dormant) :=
  At.stop (c := .dormant) h ((h.running ▸ h.roles).sleep h.awake hne)

/-- The assertion that the thread is the polling thread. -/
theorem assert (h : At s t o) (hp : s.pollingThread = some t) :
    At (s.assert (s.pollingThread = some t)) t o := { h with
  ok := by
    show (s.ok && decide _) = true
    rw [h.ok, decide_eq_true hp]
    rfl }

section

variable (h : At s t none)
include h

/-- `service_pollables` begins. -/
theorem service (hp : s.pollingThread = some t) :
    Inv ((s.assert (s.pollingThread = some t)).goto t (.servicing (begin s.pollables) false)) :=
  (h.assert hp).goto rfl (by simp) (by simp) (iff_of_true rfl hp) fun _ hi => mem_of_mem_head? hi

theorem loopTop : Inv (s.loopTop t) := by
  unfold State.loopTop
  by_cases hp : s.pollingThread = some t
  · rw [if_neg (not_not.2 hp)]
    exact h.service hp
  · rw [if_pos hp]
    exact h.sleep hp

theorem serviced (progress : Bool)
    (hp : progress = true → s.pollingThread = some t) : Inv (s.serviced t progress) := by
  unfold State.serviced
  cases progress with
  | true =>
    exact At.stopAt (c := .yielding) h (by simp) (by simp) (iff_of_true rfl (hp rfl)) rfl
  | false =>
    by_cases hpt : s.pollingThread = some t
    · rw [if_pos hpt]
      exact h.goto rfl (by simp) (by simp) (iff_of_true rfl hpt) fun i hi => mem_of_mem_head? hi
    · rw [if_neg hpt]
      exact h.loopTop

theorem nextPollable {j : Option ℕ} (hj : ∀ i, j = some i → i ∈ nodes s.pollables)
    (progress : Bool) : Inv (s.nextPollable t j progress) := by
  unfold State.nextPollable
  by_cases hp : s.pollingThread = some t
  · rw [if_neg (not_not.2 hp)]
    exact h.goto rfl (by simp) (by simp) (iff_of_true rfl hp) hj
  rw [if_pos hp]
  cases hpt : s.pollingThread with
  | some u =>
    exact h.serviced false nofun
  | none =>
    -- everyone was busy: the thread reclaims the position
    have hroles := h.roles
    rw [hpt, h.running] at hroles
    exact At.stop (c := .yielding) h (hroles.shift h.awake (by decide) (by decide) (.inr rfl)
      (iff_of_true rfl rfl) (fun u hu => by simp [hu.symm]) nofun)

theorem reference (hi : i ∈ nodes s.pollables) :
    At (s.reference i) t (some i) ∧ ∃ ref, deref (s.reference i).pollables i = some ref := by
  have hlist := h.list.take hi (update_self t none fun u => (s.pc u).node?)
  rw [update_idem] at hlist
  exact ⟨⟨h.ok, h.roles, h.running, h.awake, hlist, h.logged.modify i fun _ => ⟨rfl, rfl⟩⟩,
    exists_deref (hlist.held t i (by simp))⟩

end

/-- The reference is given back, and the iterator is left at a node that is there. -/
theorem unreference (h : At s t (some i)) :
    At (s.unreference i).2 t none ∧
      (∀ j, (s.unreference i).1 = some j → j ∈ nodes (s.unreference i).2.pollables) ∧
      (s.unreference i).2.pollingThread = s.pollingThread := by
  have hheld : update (fun u => (s.pc u).node?) t (some i) t = some i := by
    rw [update_self]
  obtain ⟨ref, href⟩ := exists_deref (h.list.held t i hheld)
  obtain ⟨hmem, hnode⟩ := deref_eq_some href
  have hlist := h.list.leave hheld href
  rw [update_idem] at hlist
  unfold State.unreference
  rw [href]
  refine ⟨⟨h.ok, h.roles, h.running, h.awake, hlist, ?_⟩, fun j hj => ?_, rfl⟩
  · dsimp only
    split_ifs with hlast
    · refine h.logged.mono (fun ref' href' => ⟨ref', (mem_erase.1 href').1, rfl, rfl⟩)
        fun ref' href' hsome => ⟨ref', mem_erase.2 ⟨href', fun hi => hsome ?_⟩, rfl, rfl⟩
      obtain rfl := eq_of_node_eq h.list.nodup href' hmem (hi.trans hnode.symm)
      exact isNone_iff_eq_none.1 hlast.2
    · exact h.logged.modify i fun _ => ⟨rfl, rfl⟩
  · dsimp only at hj ⊢
    have hjmem := succ_mem hj
    have hjne := succ_ne h.list.nodup hj
    split
    · obtain ⟨ref', hmem', rfl⟩ := mem_nodes.1 hjmem
      exact mem_nodes.2 ⟨ref', mem_erase.2 ⟨hmem', hjne⟩, rfl⟩
    · rwa [nodes_modify s.pollables i (f := fun ref => { ref with refCnt := ref.refCnt - 1 })
        fun _ => rfl]

end At

variable {s s' : State P n} {t : Fin (n + 1)}

theorem Inv.run (h : Inv s) (hpc : s.pc (Fin.last n) = .outside) : Inv s.run := by
  obtain ⟨hrun, hdormant⟩ := h.roles.outside hpc
  set c : Pc := .servicing (begin s.pollables) false with hc
  have hroles : Roles (update s.pc (Fin.last n) c) (some (Fin.last n)) s.dormantThreads
      (some (Fin.last n)) := by
    refine h.roles.shift (hpc ▸ nofun) nofun nofun (.inl hrun) (iff_of_true rfl rfl)
      (fun u hu => iff_of_false (by simp [hu.symm]) fun heq => ?_) fun _ => rfl
    have hacts := (h.roles.acts u).2 heq
    rw [hdormant u hu] at hacts
    nomatch hacts
  unfold State.run State.loopTop
  rw [if_neg (not_not.2 rfl)]
  refine ⟨?_, hroles, ?_, hroles.iter_update fun i hi => mem_of_mem_head? hi, h.logged⟩
  · rw [h.ok, decide_eq_true rfl]
    rfl
  · show Nodes _ _ _ fun u => (update s.pc (Fin.last n) c u).node?
    rw [node?_update]
    have := h.list
    rw [← update_eq_self (Fin.last n) fun u => (s.pc u).node?, hpc] at this
    exact this

/-- A blocked thread runs again. -/
theorem Inv.wake (h : Inv s) (hrun : s.running = none) (hawake : s.pc t ≠ .dormant)
    (hout : s.pc t ≠ .outside) : Inv { s with running := some t } := by
  refine { h with
    roles := { h.roles with runs := fun u hu => ?_, outside := fun hlast => ?_ } }
  · nomatch hrun.symm.trans (h.roles.runs u hu)
  · have ht : t ≠ Fin.last n := by
      rintro rfl
      exact hout hlast
    exact absurd ((h.roles.outside hlast).2 t ht) hawake

theorem Inv.resume (h : Inv s) (hrun : s.running = none) (hs : s.resume t = some s') : Inv s' := by
  have hat (hd : s.pc t ≠ .dormant) (hout : s.pc t ≠ .outside) (ho : (s.pc t).node? = none) :
      At { s with running := some t } t none := At.of_inv (h.wake hrun hd hout) rfl hd ho
  have hp : (s.pc t).acts = true → s.pollingThread = some t := (h.roles.acts t).1
  unfold State.resume at hs
  dsimp only at hs
  cases hpc : s.pc t with rw [hpc] at hs
  | outside | dormant | servicing _ _ | waitLoop _ | inWait _ => nomatch hs
  | polling i progress hook =>
    cases hs
    exact h.wake hrun (hpc ▸ by simp) (hpc ▸ by simp)
  | woken =>
    rw [hpc] at hat hp
    cases hs
    exact ((hat nofun nofun rfl).assert (hp rfl)).service (hp rfl)
  | yielding =>
    rw [hpc] at hat hp
    cases hs
    exact (hat nofun nofun rfl).service (hp rfl)
  | waiting =>
    rw [hpc] at hat
    cases hs
    exact (hat nofun nofun rfl).loopTop

/-- A call of the pollable of the node the thread has just taken. -/
theorem At.call {i : ℕ} (h : At s t (some i)) {ref : PollableRef P}
    (href : deref s.pollables i = some ref) (hp : ref.pollable = some p)
    (he : e = .poll p ∨ e = .wait p) (hc : c.node? = some i) (hacts : c.acts = true)
    (hiter : c.iter? = none) (hpt : s.pollingThread = some t) :
    Inv ({ s with log := e :: s.log }.goto t c) := by
  have hat : At { s with log := e :: s.log } t (some i) := { h with
    logged := h.logged.call (deref_eq_some href).1 hp he }
  refine hat.goto hc ?_ ?_ (iff_of_true hacts hpt) fun j hj => nomatch hiter.symm.trans hj
  all_goals
    rintro rfl
    exact false_ne_true hacts

section

variable (h : Inv s)
include h

theorem Inv.visit (hrun : s.running = some t) (hs : s.visit t = some s') : Inv s' := by
  unfold State.visit at hs
  have hpt : (s.pc t).acts = true → s.pollingThread = some t := (h.roles.acts t).1
  cases hpc : s.pc t with rw [hpc] at hs hpt
  | outside | dormant | woken | polling _ _ _ | yielding | inWait _ | waiting => nomatch hs
  | servicing j progress =>
    have hat : At s t none := At.of_inv h hrun (hpc ▸ by simp) (hpc ▸ rfl)
    cases j with
    | none =>
      cases hs
      exact hat.serviced progress fun _ => hpt rfl
    | some i =>
      obtain ⟨hat', ⟨node, pollable, refCnt⟩, href⟩ := hat.reference (h.iter t i (hpc ▸ rfl))
      dsimp only at hs
      rw [href] at hs
      cases pollable with cases hs
      | some p => exact hat'.call href rfl (.inl rfl) rfl rfl rfl (hpt rfl)
      | none =>
        obtain ⟨hat'', hj, -⟩ := hat'.unreference
        exact hat''.nextPollable hj progress
  | waitLoop j =>
    have hat : At s t none := At.of_inv h hrun (hpc ▸ by simp) (hpc ▸ rfl)
    cases j with
    | none =>
      cases hs
      exact At.stopAt (c := .waiting) hat (by simp) (by simp) (iff_of_true rfl (hpt rfl)) rfl
    | some i =>
      obtain ⟨hat', ⟨node, pollable, refCnt⟩, href⟩ := hat.reference (h.iter t i (hpc ▸ rfl))
      dsimp only at hs
      rw [href] at hs
      cases pollable with cases hs
      | some p => exact hat'.call href rfl (.inr rfl) rfl rfl rfl (hpt rfl)
      | none =>
        obtain ⟨hat'', hj, hpoll⟩ := hat'.unreference
        exact hat''.goto rfl (by simp) (by simp) (iff_of_true rfl (hpoll.trans (hpt rfl))) hj

theorem Inv.ret (hrun : s.running = some t) {result : Bool}
    (hs : s.ret t result = some s') : Inv s' := by
  unfold State.ret at hs
  cases hpc : s.pc t with rw [hpc] at hs
  | outside | dormant | woken | servicing _ _ | yielding | waitLoop _ | waiting => nomatch hs
  | polling i progress hook =>
    cases hs
    have hat : At s t (some i) := At.of_inv h hrun (hpc ▸ by simp) (hpc ▸ rfl)
    obtain ⟨hat', hj, -⟩ := hat.unreference
    exact hat'.nextPollable hj (progress || result)
  | inWait i =>
    cases hs
    have hat : At s t (some i) := At.of_inv h hrun (hpc ▸ by simp) (hpc ▸ rfl)
    have hp : s.pollingThread = some t := (h.roles.acts t).1 (hpc ▸ rfl)
    obtain ⟨hat', hj, hpoll⟩ := hat.unreference
    exact hat'.goto rfl (by simp) (by simp) (iff_of_true rfl (hpoll.trans hp)) hj

/-- The list is rotated, and the threads change their parts. -/
theorem Inv.rotated (i : ℕ) (hroles : Roles pc pollingThread dormantThreads none)
    (hnode : ∀ u, (pc u).node? = (s.pc u).node?) :
    Inv { s with
      pc, pollingThread, dormantThreads, pollables := rotate s.pollables i, running := none } := by
  have hperm : (rotate s.pollables i).Perm s.pollables :=
    perm_append_comm.trans (List.Perm.of_eq (take_append_drop _ s.pollables))
  refine ⟨h.ok, hroles, ?_, hroles.iter_mem _, ?_⟩
  · rw [funext hnode]
    exact h.list.perm hperm
  · exact h.logged.mono (fun ref href => ⟨ref, hperm.mem_iff.1 href, rfl, rfl⟩)
      fun ref href _ => ⟨ref, hperm.mem_iff.2 href, rfl, rfl⟩

theorem Inv.block (hrun : s.running = some t) (hs : s.block t = some s') : Inv s' := by
  unfold State.block at hs
  cases hpc : s.pc t with rw [hpc] at hs
  | outside | dormant | woken | servicing _ _ | yielding | waitLoop _ | inWait _ | waiting =>
    nomatch hs
  | polling i progress hook =>
    have hroles := h.roles
    rw [hrun] at hroles
    cases hook with cases hs
    | false =>
      refine { h with
        roles := { hroles with runs := fun u hu => ?_, outside := fun hlast => ?_ } }
      · -- the thread itself has no hook any more, so that it may block
        obtain rfl := some.inj (hroles.runs u hu)
        rw [hpc] at hu
        nomatch hu
      · nomatch (hroles.outside hlast).1.symm
    | true =>
      have hroles' := hroles.retire hpc
      have hnode : ∀ u, (update s.pc t (.polling i progress false) u).node? =
          (s.pc u).node? :=
        (forall_update_iff s.pc fun u c => c.node? = (s.pc u).node?).2
          ⟨by rw [hpc]; rfl, fun _ _ => rfl⟩
      cases hd : s.dormantThreads with
      | nil =>
        rw [hd] at hroles'
        simp only [appointPollingThread, hd]
        exact h.rotated i hroles' hnode
      | cons d ds =>
        rw [hd] at hroles hroles'
        have hdpc : s.pc d = .dormant := (hroles.dormant d).1 mem_cons_self
        have hdt : d ≠ t := by
          rintro rfl
          nomatch hdpc.symm.trans hpc
        have hout : update s.pc t (.polling i progress false) (Fin.last n) ≠ .outside := by
          intro hlast
          by_cases hl : t = Fin.last n
          · rw [← hl, update_self] at hlast
            nomatch hlast
          · have := (hroles'.outside hlast).2 t hl
            rw [update_self] at this
            nomatch this
        have hroles'' := hroles'.appoint hout
        rw [update_comm hdt.symm] at hroles''
        simp only [appointPollingThread, hd]
        refine h.rotated i hroles'' ?_
        show ∀ u, (update (update s.pc d .woken) t _ u).node? = _
        rw [update_comm hdt]
        exact (forall_update_iff _ fun u (c : Pc) => c.node? = (s.pc u).node?).2
          ⟨by rw [hdpc]; rfl, fun u _ => hnode u⟩

theorem Inv.add [DecidableEq P] (hp : s.registered p = false) : Inv (s.addPollable p) := by
  have hnot : ∀ ref ∈ s.pollables, ref.pollable ≠ some p := by
    intro ref href heq
    have hmem : s.registered p = true := any_eq_true.2 ⟨ref, href, decide_eq_true heq⟩
    exact false_ne_true (hp.symm.trans hmem)
  refine ⟨h.ok, h.roles, h.list.add hnot, fun t i hi => ?_, h.logged.add p⟩
  obtain ⟨ref, href, hnode⟩ := mem_nodes.1 (h.iter t i hi)
  exact mem_nodes.2 ⟨ref, mem_append_left _ href, hnode⟩

/-- Where the loop may be called, no thread has an iterator. -/
theorem Inv.no_iter (hcall : s.callable = true) (u : Fin (n + 1)) (i : ℕ) :
    (s.pc u).iter? ≠ some i := by
  intro hi
  have hrun := h.roles.runs u (Pc.runs_of_iter? hi)
  unfold callable at hcall
  rw [hrun] at hcall
  dsimp only at hcall
  cases hpc : s.pc u <;> rw [hpc] at hi hcall <;>
    first
    | exact false_ne_true hcall
    | nomatch hi

theorem Inv.remove [DecidableEq P] (hcall : s.callable = true)
    (hp : s.registered p = true) : Inv (s.removePollable p) := by
  obtain ⟨ref, href, hpoll⟩ := any_eq_true.1 hp
  replace hpoll : ref.pollable = some p := of_decide_eq_true hpoll
  have hpos : s.pos p = ref.node := h.list.pos ref href p hpoll
  obtain ⟨ref', hderef⟩ := exists_deref (mem_nodes.2 ⟨ref, href, hpos.symm⟩)
  obtain ⟨hmem, hnode⟩ := deref_eq_some hderef
  obtain rfl := eq_of_node_eq h.list.nodup hmem href (hnode.trans hpos)
  unfold removePollable
  rw [hderef]
  refine ⟨?_, h.roles, h.list.remove hderef, fun t i hi => (h.no_iter hcall t i hi).elim, ?_⟩
  · show (s.ok && ref'.pollable.isSome) = true
    rw [h.ok, hpoll]
    rfl
  · show Logged (if ref'.refCnt = 0 then erase s.pollables (s.pos p) else
      modify s.pollables (s.pos p) fun ref => { ref with pollable := none }) s.next
      (.remove p (s.pos p) :: s.log)
    rw [hpos]
    refine h.logged.remove h.list.nodup href hpoll (fun r hr hrp => ?_) (h.list.below _ href)
      (fun r hr hne => ?_) (fun r hr hne => ?_) fun r hr heq => ?_
    · exact (h.list.pos r hr p hrp).symm.trans hpos
    · split at hr
      · exact (mem_erase.1 hr).1
      · rcases mem_modify hr with ⟨r, -, heq, rfl⟩ | ⟨hr, -⟩
        · exact absurd heq hne
        · exact hr
    · split
      · exact mem_erase.2 ⟨hr, hne⟩
      · exact mem_map.2 ⟨r, hr, if_neg hne⟩
    · split at hr
      · exact absurd heq (mem_erase.1 hr).2
      · rcases mem_modify hr with ⟨r, -, -, rfl⟩ | ⟨-, hne⟩
        · rfl
        · exact absurd heq hne

/-- **Every step keeps the invariant.** -/
theorem Inv.step [DecidableEq P] {a : Act P n} (hs : s.step a = some s') : Inv s' := by
  cases a with
  | run =>
    obtain ⟨⟨-, hpc⟩, rfl⟩ := Lib.of_guard hs
    exact h.run hpc
  | resume t =>
    obtain ⟨hrun, hs⟩ := ite_none_right_eq_some.1 hs
    exact h.resume hrun hs
  | visit =>
    obtain ⟨t, hrun, hs⟩ := bind_eq_some_iff.1 hs
    exact h.visit hrun hs
  | add p =>
    simp only [State.step, ite_none_right_eq_some, some.injEq, not_eq_true] at hs
    obtain ⟨⟨-, hp⟩, rfl⟩ := hs
    exact h.add hp
  | remove p =>
    obtain ⟨⟨hcall, hp⟩, rfl⟩ := Lib.of_guard hs
    exact h.remove hcall hp
  | block =>
    obtain ⟨t, hrun, hs⟩ := bind_eq_some_iff.1 hs
    exact h.block hrun hs
  | ret progress =>
    obtain ⟨t, hrun, hs⟩ := bind_eq_some_iff.1 hs
    exact h.ret hrun hs

/-- A node is in the list exactly while its pollable was not removed, or a thread is in a call of
it. -/
theorem Inv.mem_nodes_iff (i : ℕ) : i ∈ nodes s.pollables ↔
    (∃ p, .add p i ∈ s.log) ∧ ((∀ p, .remove p i ∉ s.log) ∨ ∃ t, (s.pc t).node? = some i) := by
  constructor
  · intro hi
    obtain ⟨ref, href, rfl⟩ := mem_nodes.1 hi
    refine ⟨h.logged.added ref href, ?_⟩
    cases hpoll : ref.pollable with
    | some p =>
      refine .inl fun q hq => ?_
      nomatch hpoll.symm.trans (h.logged.dead ref href q hq)
    | none =>
      have hpos := h.list.dead ref href hpoll
      rw [h.list.count ref href] at hpos
      obtain ⟨t, ht⟩ := Finset.card_pos.1 hpos
      exact .inr ⟨t, mem_holders.1 ht⟩
  · rintro ⟨⟨p, hadd⟩, hrem | ⟨t, ht⟩⟩
    · obtain ⟨ref, href, hnode⟩ := h.logged.kept p i hadd hrem
      exact mem_nodes.2 ⟨ref, href, hnode⟩
    · exact h.list.held t i ht

/-- A pollable is in the list once or not at all. -/
theorem Inv.count_eq_one [DecidableEq P] (hp : s.registered p = true) :
    s.pollables.countP (fun ref => ref.pollable = some p) = 1 := by
  obtain ⟨ref, href, hpoll⟩ := any_eq_true.1 hp
  replace hpoll : ref.pollable = some p := of_decide_eq_true hpoll
  have hnodup : s.pollables.Nodup := List.Nodup.of_map PollableRef.node h.list.nodup
  have hfilter : (s.pollables.filter fun r => decide (r.pollable = some p)) = [ref] := by
    refine perm_singleton.1 ((perm_ext_iff_of_nodup (hnodup.filter _)
      (nodup_singleton ref)).2 fun r => ?_)
    rw [mem_filter, mem_singleton, decide_eq_true_eq]
    constructor
    · rintro ⟨hr, hrp⟩
      refine eq_of_node_eq h.list.nodup hr href ?_
      exact (h.list.pos r hr p hrp).symm.trans (h.list.pos ref href p hpoll)
    · rintro rfl
      exact ⟨href, hpoll⟩
  rw [countP_eq_length_filter, hfilter]
  rfl

end

/-- **Hand-over is safe.**  In every state that a run of a pool of any number of threads reaches:
no assertion has failed and no erased node was used; a thread that acts for the loop, as the one
that was woken last does, is the polling thread, so there is at most one; no thread is
dormant twice; a pollable in the list is there once; one that was removed, and not added since,
was not polled or waited on since; and a node is in the list exactly while its pollable was not
removed or a thread is in a call of it. -/
theorem hand_over_safe [DecidableEq P] (pos : P → ℕ) {acts : List (Act P n)}
    (hrun : Lib.run State.step (State.init P n pos) acts = some s) :
    s.ok = true ∧
    (∀ t, (s.pc t).acts = true → s.pollingThread = some t) ∧
    (∀ t u, (s.pc t).acts = true → (s.pc u).acts = true → t = u) ∧
    s.dormantThreads.Nodup ∧
    (∀ p, s.registered p = true → s.pollables.countP (fun ref => ref.pollable = some p) = 1) ∧
    (∀ p node newer older, s.log = newer ++ .remove p node :: older →
      (∀ j, .add p j ∉ newer) → .poll p ∉ newer ∧ .wait p ∉ newer) ∧
    ∀ i, i ∈ nodes s.pollables ↔ (∃ p, .add p i ∈ s.log) ∧
      ((∀ p, .remove p i ∉ s.log) ∨ ∃ t, (s.pc t).node? = some i) := by
  have h : Inv s := Lib.run_invariant (fun _ _ _ h hs => Inv.step h hs) (inv_init pos) hrun
  refine ⟨h.ok, fun t => (h.roles.acts t).1, fun t u ht hu => ?_, h.roles.nodup,
    fun p => h.count_eq_one, fun p node newer older hlog hadd => ?_, h.mem_nodes_iff⟩
  · exact some.inj (((h.roles.acts t).1 ht).symm.trans ((h.roles.acts u).1 hu))
  · exact Fair.not_called (hlog ▸ h.logged.fair) hadd

/-- Of two threads, the first blocks in a `poll()` that removed its pollable, the other is woken and
goes through the list, and then the first returns. -/
def twoThreads : List (Act ℕ 1) :=
  [.add 7, .add 8, .run, .visit, .remove 7, .block, .resume ⟨0, Nat.two_pos⟩, .visit, .ret false,
    .visit, .visit, .visit, .ret false, .visit, .visit, .resume (Fin.last 1), .ret true]

/-- The hypothesis of `hand_over_safe` is satisfiable: `twoThreads` is a run. -/
theorem hand_over_safe_two : ∃ s : State ℕ 1,
    Lib.run State.step (State.init ℕ 1 fun _ => 0) twoThreads = some s ∧
    s.ok = true ∧ s.dormantThreads.Nodup := by
  refine ⟨_, rfl, ?_⟩
  have h := hand_over_safe (fun _ : ℕ => 0)
    (show Lib.run step (init ℕ 1 fun _ => 0) twoThreads = some _ from rfl)
  exact ⟨h.1, h.2.2.2.1⟩

end NoxClassic.PollLoop
