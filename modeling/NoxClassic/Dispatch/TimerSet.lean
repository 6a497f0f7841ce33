/-
# The ordered set of timers

`std::set` searches with its comparator, through fields that `Compare_timer`
reads from the objects.  It behaves as a sorted list without repetitions as long
as no two of its timers are equivalent and none of them changes its key inside
the set; the lemmas here say what `insert` and `erase` do then.
-/

import NoxClassic.Dispatch.Timer

namespace NoxClassic.Dispatch

open List Heap

/-- What the comparator reads. -/
def TimerImpl.key (x : TimerImpl) : Timeval × UInt32 := (x.time, x.generation)

/-- The order of the keys: earlier time first, then smaller generation. -/
def KeyLt (k l : Timeval × UInt32) : Prop := k.1 < l.1 ∨ k.1 = l.1 ∧ k.2 < l.2

theorem KeyLt.irrefl (k : Timeval × UInt32) : ¬ KeyLt k k := by
  rintro (h | ⟨-, h⟩)
  · exact lt_irrefl _ h
  · exact UInt32.lt_irrefl _ h

variable {k l : Timeval × UInt32} {a b t : ℕ} {heap heap' : Heap} {timers : List ℕ}

theorem KeyLt.trans {m : Timeval × UInt32} (h : KeyLt k l) (h' : KeyLt l m) : KeyLt k m := by
  rcases h with h | ⟨he, h⟩ <;> rcases h' with h' | ⟨he', h'⟩
  · exact .inl (h.trans h')
  · exact .inl (he' ▸ h)
  · exact .inl (he ▸ h')
  · exact .inr ⟨he.trans he', UInt32.lt_trans h h'⟩

theorem KeyLt.total (h : k.2 ≠ l.2) : KeyLt k l ∨ KeyLt l k := by
  rcases lt_trichotomy k.1 l.1 with hlt | heq | hgt
  · exact .inl (.inl hlt)
  · have hne : k.2.toNat ≠ l.2.toNat := fun he => h (UInt32.toNat_inj.1 he)
    rcases Nat.lt_or_gt_of_ne hne with hlt | hgt
    · exact .inl (.inr ⟨heq, UInt32.lt_iff_toNat_lt.2 hlt⟩)
    · exact .inr (.inr ⟨heq.symm, UInt32.lt_iff_toNat_lt.2 hgt⟩)
  · exact .inr (.inl hgt)

theorem compareTimer_iff (x y : TimerImpl) : compareTimer x y = true ↔ KeyLt x.key y.key := by
  unfold compareTimer KeyLt TimerImpl.key
  by_cases h : x.time = y.time <;> simp [h]

/-- The key of the timer at an address. -/
def Heap.key (heap : Heap) (a : ℕ) : Option (Timeval × UInt32) := (heap a).map TimerImpl.key

theorem Heap.less_iff : heap.less a b = true ↔
    ∃ k l, heap.key a = some k ∧ heap.key b = some l ∧ KeyLt k l := by
  unfold less key
  cases heap a <;> cases heap b <;> simp [compareTimer_iff]

theorem Heap.less_irrefl (heap : Heap) (a : ℕ) : heap.less a a = false := by
  rw [Bool.eq_false_iff]
  intro h
  obtain ⟨k, l, hk, hl, hlt⟩ := less_iff.1 h
  obtain rfl := Option.some.inj (hk.symm.trans hl)
  exact KeyLt.irrefl _ hlt

theorem Heap.less_trans {c : ℕ} (h : heap.less a b = true)
    (h' : heap.less b c = true) : heap.less a c = true := by
  obtain ⟨k, l, hk, hl, hkl⟩ := less_iff.1 h
  obtain ⟨l', m, hl', hm, hlm⟩ := less_iff.1 h'
  obtain rfl := Option.some.inj (hl.symm.trans hl')
  exact less_iff.2 ⟨k, m, hk, hm, hkl.trans hlm⟩

/-- The comparator reads nothing but the keys. -/
theorem Heap.less_congr (ha : heap.key a = heap'.key a)
    (hb : heap.key b = heap'.key b) : heap.less a b = heap'.less a b := by
  rw [Bool.eq_iff_iff, less_iff, less_iff, ha, hb]

/-- The timers of a `Timer_queue` stand in increasing order. -/
def Heap.Sorted (heap : Heap) (timers : List ℕ) : Prop :=
  timers.Pairwise fun a b => heap.less a b = true

theorem Heap.Sorted.nodup (h : heap.Sorted timers) : timers.Nodup :=
  h.imp fun hab he => by rw [he, less_irrefl] at hab; exact Bool.false_ne_true hab

theorem Heap.Sorted.congr (h : heap.Sorted timers)
    (he : ∀ a ∈ timers, heap.key a = heap'.key a) : heap'.Sorted timers :=
  Pairwise.imp_of_mem (fun ha hb hab => by rwa [← less_congr (he _ ha) (he _ hb)]) h

theorem Heap.perm_insert (h : ∀ u ∈ timers, heap.less t u = true ∨ heap.less u t = true) :
    (heap.insert t timers).Perm (t :: timers) := by
  induction timers with
  | nil => exact Perm.refl _
  | cons u us ih =>
    unfold insert
    split
    · exact Perm.refl _
    · rename_i htu
      have hut := (h u mem_cons_self).resolve_left htu
      rw [hut]
      exact ((ih fun v hv => h v (mem_cons_of_mem _ hv)).cons u).trans (Perm.swap t u us)

theorem Heap.Sorted.insert (hs : heap.Sorted timers)
    (h : ∀ u ∈ timers, heap.less t u = true ∨ heap.less u t = true) :
    heap.Sorted (heap.insert t timers) := by
  induction timers with
  | nil => exact pairwise_singleton _ _
  | cons u us ih =>
    obtain ⟨hu, hus⟩ := pairwise_cons.1 hs
    unfold Heap.insert
    split <;> rename_i htu
    · refine pairwise_cons.2 ⟨fun v hv => ?_, hs⟩
      rcases mem_cons.1 hv with rfl | hv
      · exact htu
      · exact less_trans htu (hu v hv)
    · have hut := (h u mem_cons_self).resolve_left htu
      have h' : ∀ v ∈ us, heap.less t v = true ∨ heap.less v t = true :=
        fun v hv => h v (mem_cons_of_mem _ hv)
      rw [hut]
      refine pairwise_cons.2 ⟨fun v hv => ?_, ih hus h'⟩
      rcases mem_cons.1 ((perm_insert h').mem_iff.1 hv) with rfl | hv
      · exact hut
      · exact hu v hv

/-- `erase` finds a timer of the set where it stands. -/
theorem Heap.Sorted.erase_eq (hs : heap.Sorted timers)
    (ht : t ∈ timers) : heap.erase t timers = timers.erase t := by
  induction timers with
  | nil => nomatch ht
  | cons u us ih =>
    obtain ⟨hu, hus⟩ := pairwise_cons.1 hs
    by_cases he : u = t
    · subst he
      simp [erase, less_irrefl]
    · have htus : t ∈ us := (mem_cons.1 ht).resolve_left (Ne.symm he)
      simp only [erase, hu t htus, if_true, ih hus htus]
      rw [erase_cons_tail (by simpa using he)]

/-- Inserting one after another all of `ts`, no two of them and none of the set
equivalent. -/
theorem Heap.Sorted.foldl_insert {ts : List ℕ} (hs : heap.Sorted timers)
    (h : ∀ t ∈ ts, ∀ u ∈ timers, heap.less t u = true ∨ heap.less u t = true)
    (hts : ts.Pairwise fun t u => heap.less t u = true ∨ heap.less u t = true) :
    heap.Sorted (ts.foldl (fun l t => heap.insert t l) timers) ∧
      (ts.foldl (fun l t => heap.insert t l) timers).Perm (ts ++ timers) := by
  induction ts generalizing timers with
  | nil => exact ⟨hs, Perm.refl _⟩
  | cons t ts ih =>
    obtain ⟨ht, hts⟩ := pairwise_cons.1 hts
    have htt := h t mem_cons_self
    have hperm := perm_insert htt
    have h' : ∀ u ∈ ts, ∀ v ∈ heap.insert t timers,
        heap.less u v = true ∨ heap.less v u = true := by
      intro u hu v hv
      rcases mem_cons.1 (hperm.mem_iff.1 hv) with rfl | hv
      · exact (ht u hu).symm
      · exact h u (mem_cons_of_mem _ hu) v hv
    obtain ⟨hsorted, hp⟩ := ih (hs.insert htt) h' hts
    exact ⟨hsorted, hp.trans ((hperm.append_left ts).trans perm_middle)⟩

end NoxClassic.Dispatch
