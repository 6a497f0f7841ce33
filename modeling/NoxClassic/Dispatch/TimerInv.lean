/-
# The three sets of the timer dispatcher stay coherent

`SetInv` relates `timers`, `applicants`, `all_timers` and the objects: the first
two make up the third, `admitted` says which of them a timer is in, and the
ordered set is sorted by the times its objects now have.  Every operation of the
dispatcher is a few of the moves below: take a timer out of the sets, change or
free an object that is in none, put one among the applicants, admit them all.
-/

import NoxClassic.Dispatch.TimerSet

namespace NoxClassic.Dispatch

open Function List Option TimerDispatcher

/-- The sets and the heap after `posts` timers were posted. -/
structure SetInv (d : TimerDispatcher) (posts : ℕ) : Prop where
  gen : d.nextGeneration = UInt32.ofNat posts
  impl : ∀ a x, d.heap a = some x → x.generation = UInt32.ofNat x.uid ∧ x.uid ≤ posts
  uid_inj : ∀ a b x y, d.heap a = some x → d.heap b = some y → x.uid = y.uid → a = b
  admitted : ∀ a ∈ d.timers, ∃ x, d.heap a = some x ∧ x.admitted = true
  waiting : ∀ a ∈ d.applicants, ∃ x, d.heap a = some x ∧ x.admitted = false
  sorted : d.heap.Sorted d.timers
  nodup_applicants : d.applicants.Nodup
  nodup_all : d.allTimers.Nodup
  mem_all : ∀ a, a ∈ d.allTimers ↔ a ∈ d.timers ∨ a ∈ d.applicants

variable {d : TimerDispatcher} {posts t : ℕ}

theorem generation_inj {m n : ℕ} (hm : m < 2 ^ 32) (hn : n < 2 ^ 32)
    (h : UInt32.ofNat m = UInt32.ofNat n) : m = n := by
  have h := congrArg UInt32.toNat h
  rwa [UInt32.toNat_ofNat_of_lt' hm, UInt32.toNat_ofNat_of_lt' hn] at h

theorem SetInv.initial (clock : Timeval) : SetInv (TimerWorld.initial clock).dispatcher 0 where
  gen := rfl
  impl := by simp [TimerWorld.initial]
  uid_inj := by simp [TimerWorld.initial]
  admitted := by simp [TimerWorld.initial]
  waiting := by simp [TimerWorld.initial]
  sorted := List.Pairwise.nil
  nodup_applicants := nodup_nil
  nodup_all := nodup_nil
  mem_all := by simp [TimerWorld.initial]

section

variable (h : SetInv d posts)
include h

theorem SetInv.disjoint {a : ℕ} (ha : a ∈ d.timers) : a ∉ d.applicants := by
  intro ha'
  obtain ⟨x, hx, hadm⟩ := h.admitted a ha
  obtain ⟨y, hy, hwait⟩ := h.waiting a ha'
  obtain rfl := some.inj (hx.symm.trans hy)
  rw [hadm] at hwait
  exact Bool.noConfusion hwait

/-- `all_timers` is the disjoint union of `timers` and `applicants`. -/
theorem SetInv.perm_all :
    d.allTimers.Perm (d.timers ++ d.applicants) ∧ (d.timers ++ d.applicants).Nodup := by
  have hnodup : (d.timers ++ d.applicants).Nodup :=
    nodup_append'.2 ⟨h.sorted.nodup, h.nodup_applicants, fun a ha ha' => h.disjoint ha ha'⟩
  refine ⟨(perm_ext_iff_of_nodup h.nodup_all hnodup).2 fun a => ?_, hnodup⟩
  rw [h.mem_all, mem_append]

theorem SetInv.exists_impl {a : ℕ} (ha : a ∈ d.allTimers) :
    ∃ x, d.heap a = some x ∧ (x.admitted = true ↔ a ∈ d.timers) := by
  rcases (h.mem_all a).1 ha with ht | hw
  · obtain ⟨x, hx, hadm⟩ := h.admitted a ht
    exact ⟨x, hx, iff_of_true hadm ht⟩
  · obtain ⟨x, hx, hwait⟩ := h.waiting a hw
    refine ⟨x, hx, iff_of_false (by rw [hwait]; exact Bool.false_ne_true) fun ht => ?_⟩
    exact h.disjoint ht hw

/-- Before generations wrap, timers with different addresses are never equivalent. -/
theorem SetInv.less_total (hp : posts < 2 ^ 32) {a b : ℕ} {x y : TimerImpl} (ha : d.heap a = some x)
    (hb : d.heap b = some y) (hab : a ≠ b) : d.heap.less a b = true ∨ d.heap.less b a = true := by
  have hne : x.key.2 ≠ y.key.2 := by
    intro he
    obtain ⟨hx, hxp⟩ := h.impl a x ha
    obtain ⟨hy, hyp⟩ := h.impl b y hb
    exact hab (h.uid_inj a b x y ha hb
      (generation_inj (by omega) (by omega) (hx.symm.trans (he.trans hy))))
  have hka : d.heap.key a = some x.key := by rw [Heap.key, ha]; rfl
  have hkb : d.heap.key b = some y.key := by rw [Heap.key, hb]; rfl
  rcases KeyLt.total hne with hlt | hlt
  · exact .inl (Heap.less_iff.2 ⟨_, _, hka, hkb, hlt⟩)
  · exact .inr (Heap.less_iff.2 ⟨_, _, hkb, hka, hlt⟩)

/-! ### The moves -/

/-- A timer of the ordered set is taken out of it. -/
theorem SetInv.leaveTimers (ht : t ∈ d.timers) :
    SetInv { d with timers := d.timers.erase t, allTimers := d.allTimers.erase t } posts := by
  refine { h with
    admitted := fun a ha => h.admitted a (mem_of_mem_erase ha)
    sorted := h.sorted.sublist erase_sublist
    nodup_all := h.nodup_all.erase t
    mem_all := fun a => ?_ }
  simp only [h.nodup_all.mem_erase_iff, h.sorted.nodup.mem_erase_iff, h.mem_all, and_or_left]
  refine or_congr_right (and_iff_right_of_imp ?_)
  rintro ha rfl
  exact h.disjoint ht ha

/-- An applicant is taken out of the applicants. -/
theorem SetInv.leaveApplicants (ht : t ∈ d.applicants) :
    SetInv { d with applicants := d.applicants.erase t, allTimers := d.allTimers.erase t }
      posts := by
  refine { h with
    waiting := fun a ha => h.waiting a (mem_of_mem_erase ha)
    nodup_applicants := h.nodup_applicants.erase t
    nodup_all := h.nodup_all.erase t
    mem_all := fun a => ?_ }
  simp only [h.nodup_all.mem_erase_iff, h.nodup_applicants.mem_erase_iff, h.mem_all, and_or_left]
  refine or_congr_left (and_iff_right_of_imp ?_)
  rintro ha rfl
  exact h.disjoint ha ht

/-- An object in none of the sets is changed, put on the heap or freed.  A new one
must not share its number with another. -/
theorem SetInv.setHeap (ht : t ∉ d.allTimers) (o : Option TimerImpl)
    (ho : ∀ x, o = some x → x.generation = UInt32.ofNat x.uid ∧ x.uid ≤ posts ∧
      ∀ b y, b ≠ t → d.heap b = some y → y.uid ≠ x.uid) :
    SetInv { d with heap := update d.heap t o } posts := by
  have hne : ∀ a, a ∈ d.timers ∨ a ∈ d.applicants → a ≠ t := by
    intro a ha he
    exact ht ((h.mem_all t).2 (he ▸ ha))
  have hcases {a : ℕ} {x : TimerImpl} (hx : update d.heap t o a = some x) :
      a = t ∧ o = some x ∨ a ≠ t ∧ d.heap a = some x := by
    rw [update_apply] at hx
    split_ifs at hx with ha
    · exact .inl ⟨ha, hx⟩
    · exact .inr ⟨ha, hx⟩
  refine ⟨h.gen, fun a x hx => ?_, fun a b x y hx hy hxy => ?_, fun a ha => ?_, fun a ha => ?_, ?_,
    h.nodup_applicants, h.nodup_all, h.mem_all⟩
  · rcases hcases hx with ⟨-, hx⟩ | ⟨-, hx⟩
    · exact ⟨(ho x hx).1, (ho x hx).2.1⟩
    · exact h.impl a x hx
  · rcases hcases hx with ⟨ha, hx⟩ | ⟨ha, hx⟩ <;> rcases hcases hy with ⟨hb, hy⟩ | ⟨hb, hy⟩
    · exact ha.trans hb.symm
    · exact absurd hxy.symm ((ho x hx).2.2 b y hb hy)
    · exact absurd hxy ((ho y hy).2.2 a x ha hx)
    · exact h.uid_inj a b x y hx hy hxy
  · simpa only [update_of_ne (hne a (.inl ha))] using h.admitted a ha
  · simpa only [update_of_ne (hne a (.inr ha))] using h.waiting a ha
  · refine h.sorted.congr fun a ha => ?_
    simp only [Heap.key, update_of_ne (hne a (.inl ha))]

/-- An object in none of the sets and not admitted becomes an applicant. -/
theorem SetInv.join (ht : t ∉ d.allTimers) {x : TimerImpl}
    (hx : d.heap t = some x) (hadm : x.admitted = false) :
    SetInv { d with applicants := setInsert t d.applicants
                    allTimers := setInsert t d.allTimers } posts := by
  have hta : t ∉ d.applicants := fun ha => ht ((h.mem_all t).2 (.inr ha))
  simp only [setInsert, if_neg ht, if_neg hta]
  refine ⟨h.gen, h.impl, h.uid_inj, h.admitted, fun a ha => ?_, h.sorted,
    nodup_cons.2 ⟨hta, h.nodup_applicants⟩, nodup_cons.2 ⟨ht, h.nodup_all⟩, fun a => ?_⟩
  · rcases mem_cons.1 ha with rfl | ha
    · exact ⟨x, hx, hadm⟩
    · exact h.waiting a ha
  · simp only [mem_cons, h.mem_all]
    exact or_left_comm

/-- The applicants are admitted: they are marked and inserted, whatever their order. -/
theorem SetInv.admitApplicants (hp : posts < 2 ^ 32) (now : Timeval) :
    SetInv (d.admitApplicants now) posts ∧
      (d.admitApplicants now).timers.Perm (d.applicants ++ d.timers) := by
  have hkey : ∀ a, d.markAdmitted.heap.key a = d.heap.key a := by
    intro a
    simp only [Heap.key, markAdmitted]
    split
    · rw [Option.map_map]; rfl
    · rfl
  have hless : ∀ a b, d.markAdmitted.heap.less a b = d.heap.less a b :=
    fun a b => Heap.less_congr (hkey a) (hkey b)
  have hsorted : d.markAdmitted.heap.Sorted d.timers := h.sorted.congr fun a _ => (hkey a).symm
  have hsome : ∀ a x, d.markAdmitted.heap a = some x → ∃ y, d.heap a = some y ∧
      x.uid = y.uid ∧ x.generation = y.generation := by
    intro a x hx
    simp only [markAdmitted] at hx
    split at hx
    · obtain ⟨y, hy, rfl⟩ := map_eq_some_iff.1 hx
      exact ⟨y, hy, rfl, rfl⟩
    · exact ⟨x, hx, rfl, rfl⟩
  obtain ⟨hs, hperm⟩ := Heap.Sorted.foldl_insert hsorted
    (fun a ha b hb => by
      obtain ⟨x, hx, -⟩ := h.waiting a ha
      obtain ⟨y, hy, -⟩ := h.admitted b hb
      rw [hless, hless]
      exact h.less_total hp hx hy fun he => h.disjoint hb (he ▸ ha))
    (List.Pairwise.imp_of_mem (fun {a b} ha hb hab => by
      obtain ⟨x, hx, -⟩ := h.waiting a ha
      obtain ⟨y, hy, -⟩ := h.waiting b hb
      rw [hless, hless]
      exact h.less_total hp hx hy hab) h.nodup_applicants)
  refine ⟨⟨h.gen, fun a x hx => ?_, fun a b x y hx hy hxy => ?_, fun a ha => ?_, fun a ha => ?_, hs,
    nodup_nil, h.nodup_all, fun a => ?_⟩, hperm⟩
  · obtain ⟨y, hy, hu, hg⟩ := hsome a x hx
    rw [hu, hg]
    exact h.impl a y hy
  · obtain ⟨x', hx', hxu, -⟩ := hsome a x hx
    obtain ⟨y', hy', hyu, -⟩ := hsome b y hy
    exact h.uid_inj a b x' y' hx' hy' (hxu.symm.trans (hxy.trans hyu))
  · rcases mem_append.1 (hperm.mem_iff.1 ha) with hw | ht
    · obtain ⟨x, hx, -⟩ := h.waiting a hw
      refine ⟨{ x with admitted := true }, ?_, rfl⟩
      simp only [TimerDispatcher.admitApplicants, TimerDispatcher.markAdmitted, if_pos hw, hx,
        map_some]
    · obtain ⟨x, hx, hadm⟩ := h.admitted a ht
      refine ⟨x, ?_, hadm⟩
      simp only [TimerDispatcher.admitApplicants, TimerDispatcher.markAdmitted,
        if_neg (h.disjoint ht), hx]
  · nomatch ha
  · simp only [TimerDispatcher.admitApplicants, not_mem_nil, or_false]
    exact (h.mem_all a).trans (or_comm.trans (mem_append.symm.trans hperm.mem_iff.symm))

end

/-! ### What the operations do to the other timers -/

theorem mem_setInsert {a t : ℕ} {s : List ℕ} : a ∈ setInsert t s ↔ a = t ∨ a ∈ s := by
  unfold setInsert
  split_ifs with ht
  · exact ⟨.inr, fun h => h.elim (fun he => he ▸ ht) id⟩
  · exact mem_cons

/-- From `d` to `d'` no timer entered the ordered set and those still in it are as they were;
a timer of the sets was there before, or is a new one; and the objects outside the sets are
untouched. -/
structure Moves (posts : ℕ) (d d' : TimerDispatcher) : Prop where
  timers : ∀ a ∈ d'.timers, a ∈ d.timers ∧ d'.heap a = d.heap a
  all : ∀ a ∈ d'.allTimers,
    a ∈ d.allTimers ∧ (d'.heap a).map TimerImpl.uid = (d.heap a).map TimerImpl.uid ∨
      d.heap a = none ∧ (d'.heap a).map TimerImpl.uid = some (posts + 1)
  other : ∀ a ∉ d.allTimers, d.heap a ≠ none → d'.heap a = d.heap a
  serial : d'.serial = d.serial

/-- The operation on timer `t` is one on a timer of the sets, and leaves it in neither
the ordered set nor, unless it stays an applicant, the sets at all. -/
theorem SetInv.cancel (h : SetInv d posts) (ht : t ∈ d.allTimers) {x : TimerImpl}
    (hx : d.heap t = some x) :
    SetInv (d.cancel t x) posts ∧ t ∉ (d.cancel t x).allTimers ∧ Moves posts d (d.cancel t x) := by
  obtain ⟨y, hy, hadm⟩ := h.exists_impl ht
  obtain rfl := some.inj (hx.symm.trans hy)
  have hnot : t ∉ d.allTimers.erase t := h.nodup_all.not_mem_erase
  unfold TimerDispatcher.cancel
  split_ifs with hin
  · have htt := hadm.1 hin
    rw [h.sorted.erase_eq htt]
    have hne : ∀ a ∈ d.allTimers.erase t, a ≠ t := fun a ha he => hnot (he ▸ ha)
    refine ⟨(h.leaveTimers htt).setHeap hnot _ ?_, hnot, fun a ha => ?_,
      fun a ha => .inl ⟨mem_of_mem_erase ha, ?_⟩, fun a ha _ => ?_, rfl⟩
    · rintro z hz
      cases hz
      obtain ⟨hg, hu⟩ := h.impl t x hx
      exact ⟨hg, hu, fun b y hb hy he => hb (h.uid_inj b t y x hy hx he)⟩
    · have ha := h.sorted.nodup.mem_erase_iff.1 ha
      exact ⟨ha.2, update_of_ne ha.1 _ _⟩
    · simp only [setImpl, update_of_ne (hne a ha)]
    · exact update_of_ne (fun he : a = t => ha (he ▸ ht)) _ _
  · have htw := ((h.mem_all t).1 ht).resolve_left fun htt => hin (hadm.2 htt)
    exact ⟨h.leaveApplicants htw, hnot, fun a ha => ⟨ha, rfl⟩,
      fun a ha => .inl ⟨mem_of_mem_erase ha, rfl⟩, fun a _ _ => rfl, rfl⟩

/-- `Timer_impl::set_timeout` moves the timer to the applicants. -/
theorem SetInv.setTimeout (h : SetInv d posts) (ht : t ∈ d.allTimers) {x : TimerImpl}
    (hx : d.heap t = some x) (when : Timeval) :
    SetInv (d.setTimeout t x when) posts ∧ t ∉ (d.setTimeout t x when).timers ∧
      Moves posts d (d.setTimeout t x when) := by
  obtain ⟨hc, hnot, hs⟩ := h.cancel ht hx
  have hset := hc.setHeap hnot (some { x with admitted := false, time := when }) (by
    rintro z hz
    cases hz
    obtain ⟨hg, hu⟩ := h.impl t x hx
    refine ⟨hg, hu, fun b y hb hy he => ?_⟩
    refine hb (h.uid_inj b t y x ?_ hx he)
    unfold TimerDispatcher.cancel at hy
    split at hy
    · exact (update_of_ne hb _ _).symm.trans hy
    · exact hy)
  have hnt : t ∉ (d.cancel t x).timers := fun ha => hnot ((hc.mem_all t).2 (.inl ha))
  refine ⟨hset.join hnot (update_self t _ _) rfl, hnt, fun a ha => ?_, fun a ha => ?_,
    fun a ha hne => ?_, hs.serial⟩
  · have hne : a ≠ t := fun he => hnt (he ▸ ha)
    exact ⟨(hs.timers a ha).1, (update_of_ne hne _ _).trans (hs.timers a ha).2⟩
  · simp only [TimerDispatcher.setTimeout, TimerDispatcher.setImpl] at ha ⊢
    rw [update_apply]
    split_ifs with hat
    · rw [hat, hx]
      exact .inl ⟨ht, rfl⟩
    · exact hs.all a ((mem_setInsert.1 ha).resolve_left hat)
  · exact (update_of_ne (fun he : a = t => ha (he ▸ ht)) _ _).trans (hs.other a ha hne)

/-- `Timer_dispatcher::post` takes a number no object has. -/
theorem SetInv.post (h : SetInv d posts) (hfree : d.heap t = none) (duration : Timeval) :
    SetInv (d.post (posts + 1) t duration) (posts + 1) ∧
      Moves posts d (d.post (posts + 1) t duration) := by
  have hnot : t ∉ d.allTimers := by
    intro ht
    obtain ⟨x, hx, -⟩ := h.exists_impl ht
    nomatch hx.symm.trans hfree
  have hgen : d.nextGeneration + 1 = UInt32.ofNat (posts + 1) := by
    rw [h.gen, UInt32.ofNat_add]
    rfl
  have hbump : SetInv { d with nextGeneration := d.nextGeneration + 1 } (posts + 1) :=
    { h with
      gen := hgen
      impl := fun a x hx => ⟨(h.impl a x hx).1, (h.impl a x hx).2.trans (Nat.le_succ _)⟩ }
  have hset := hbump.setHeap hnot
    (some ⟨posts + 1, d.clock + duration, false, d.nextGeneration + 1⟩) (by
      rintro z hz
      cases hz
      refine ⟨hgen, le_rfl, fun b y _ hy he => ?_⟩
      have hle := (h.impl b y hy).2
      rw [he] at hle
      exact Nat.not_succ_le_self posts hle)
  refine ⟨hset.join hnot (update_self t _ _) rfl, fun a ha => ?_, fun a ha => ?_,
    fun a ha hne => ?_, rfl⟩
  · exact ⟨ha, update_of_ne (fun he : a = t => hnot ((h.mem_all t).2 (.inl (he ▸ ha)))) _ _⟩
  · simp only [TimerDispatcher.post, TimerDispatcher.setImpl] at ha ⊢
    rw [update_apply]
    split_ifs with hat
    · exact .inr ⟨hat ▸ hfree, rfl⟩
    · exact .inl ⟨(mem_setInsert.1 ha).resolve_left hat, rfl⟩
  · exact update_of_ne (fun he : a = t => hne (he ▸ hfree)) _ _

/-- Admission changes neither the numbers nor which objects there are. -/
theorem TimerDispatcher.admitApplicants_uid (d : TimerDispatcher) (now : Timeval) (a : ℕ) :
    ((d.admitApplicants now).heap a).map TimerImpl.uid = (d.heap a).map TimerImpl.uid := by
  simp only [admitApplicants, markAdmitted]
  split
  · rw [Option.map_map]
    rfl
  · rfl

end NoxClassic.Dispatch
