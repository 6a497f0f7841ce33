/-
# Every run of the timer dispatcher

The log of a run says what was posted, given another time, cancelled and fired,
and when polls began.  `LogOk` is what the dispatcher promises about it.
`TimerInv` adds to it what ties the log to the sets: no timer that ended is in
them, and the timers of the ordered set were not touched since the newest poll
began and come after all it has fired.

The only way an older activation could still fire is that `serial` has come back
to the value it saw, after `2^32` further polls; `Resumable` excludes that.
-/

import NoxClassic.Dispatch.TimerInv
import Mathlib.Data.List.Pairwise

namespace NoxClassic.Dispatch

open Function List Option TimerWorld TimerDispatcher Lib

/-- The timer an entry of the log says was fired. -/
def Obs.fires : Obs → Option ℕ
  | .fired _ uid _ _ _ => some uid
  | _ => none

/-- The timer that ended there: it was fired, or cancelled through a valid handle. -/
def Obs.ends : Obs → Option ℕ
  | .fired _ uid _ _ _ => some uid
  | .cancelled uid => some uid
  | _ => none

/-- The timer that was posted, delayed or reset there. -/
def Obs.touches : Obs → Option ℕ
  | .posted uid => some uid
  | .retimed uid => some uid
  | _ => none

/-- What holds of the log, which has the newest entry first.  `due`: a timer fires after its
time.  `once`: it fires at most once and never after a cancel.  `ordered`: the timers one
activation fires come in increasing order of time and generation.  `untouched`: a timer
fired by an activation was not posted, delayed or reset since that activation began. -/
structure LogOk (log : List Obs) : Prop where
  due : ∀ no uid time generation now, .fired no uid time generation now ∈ log → time < now
  once : log.Pairwise fun newer older => ∀ uid, newer.fires = some uid → older.ends ≠ some uid
  ordered : log.Pairwise fun newer older => ∀ no u t g n u' t' g' n',
    newer = .fired no u t g n → older = .fired no u' t' g' n' → KeyLt (t', g') (t, g)
  untouched : ∀ no uid time generation now l,
    (.fired no uid time generation now :: l) <:+ log →
      ∀ o ∈ l.takeWhile (· ≠ .began no), o.touches ≠ some uid

theorem LogOk.nil : LogOk [] where
  due := by simp
  once := Pairwise.nil
  ordered := Pairwise.nil
  untouched := by simp

variable {d : TimerDispatcher} {t : ℕ} {x : TimerImpl} {a : TimerAct}

/-- An entry that is no firing keeps the log right. -/
theorem LogOk.cons {o : Obs} {log : List Obs} (h : LogOk log) (ho : o.fires = none) :
    LogOk (o :: log) := by
  have hne : ∀ no u t g n, o ≠ .fired no u t g n := by
    rintro no u t g n rfl
    exact some_ne_none u ho
  refine ⟨fun no u t g n hm => ?_, ?_, ?_, fun no u t g n l hl => ?_⟩
  · exact h.due no u t g n ((mem_cons.1 hm).resolve_left (hne no u t g n).symm)
  · refine pairwise_cons.2 ⟨fun p _ u hu => ?_, h.once⟩
    nomatch (ho.symm.trans hu).symm
  · exact pairwise_cons.2 ⟨fun p _ no u t g n _ _ _ _ he => absurd he (hne no u t g n), h.ordered⟩
  · rcases suffix_cons_iff.1 hl with he | hl
    · exact absurd (cons.inj he).1.symm (hne no u t g n)
    · exact h.untouched no u t g n l hl

/-- The invariant of a run. -/
structure TimerInv (w : TimerWorld) : Prop where
  sets : SetInv w.dispatcher w.posts
  serial : w.dispatcher.serial = UInt32.ofNat w.polls
  active : ∀ b ∈ w.active, b.serial = UInt32.ofNat (b.no + 1) ∧ b.no < w.polls ∧
    b.timer ∉ w.dispatcher.allTimers ∧ w.dispatcher.heap b.timer ≠ none
  apart : w.active.Pairwise fun b c => b.no ≠ c.no ∧ b.timer ≠ c.timer
  dead : ∀ o ∈ w.log, ∀ u, o.ends = some u → u ≤ w.posts ∧
    ∀ a ∈ w.dispatcher.allTimers, (w.dispatcher.heap a).map TimerImpl.uid ≠ some u
  fresh : ∀ no, no + 1 = w.polls → ∀ a ∈ w.dispatcher.timers,
    ∀ o ∈ w.log.takeWhile (· ≠ .began no), ∀ u, o.touches = some u →
      (w.dispatcher.heap a).map TimerImpl.uid ≠ some u
  behind : ∀ no u t g n, .fired no u t g n ∈ w.log → no < w.polls ∧
    (no + 1 = w.polls → ∀ a ∈ w.dispatcher.timers, ∀ k, w.dispatcher.heap.key a = some k →
      KeyLt (t, g) k)
  log : LogOk w.log

theorem TimerInv.initial (clock : Timeval) : TimerInv (initial clock) where
  sets := SetInv.initial clock
  serial := rfl
  active := by simp [TimerWorld.initial]
  apart := Pairwise.nil
  dead := by simp [TimerWorld.initial]
  fresh := by simp [TimerWorld.initial]
  behind := by simp [TimerWorld.initial]
  log := LogOk.nil

variable {w w' : TimerWorld}

/-- What it takes that stale handles do nothing: the part of the invariant that holds however
many polls have begun. -/
structure HandleInv (w : TimerWorld) : Prop where
  sets : SetInv w.dispatcher w.posts
  active : ∀ b ∈ w.active, b.no < w.polls ∧ b.timer ∉ w.dispatcher.allTimers ∧
    w.dispatcher.heap b.timer ≠ none
  apart : w.active.Pairwise fun b c => b.no ≠ c.no ∧ b.timer ≠ c.timer
  dead : ∀ o ∈ w.log, ∀ u, o.ends = some u → u ≤ w.posts ∧
    ∀ a ∈ w.dispatcher.allTimers, (w.dispatcher.heap a).map TimerImpl.uid ≠ some u

theorem TimerInv.handles (h : TimerInv w) : HandleInv w :=
  ⟨h.sets, fun b hb => (h.active b hb).2, h.apart, h.dead⟩

/-! ### What a step can do -/

/-- A step outside the loop of `poll()` moves timers between the sets and logs `o`, which is
no firing: a timer it ends is in no set afterwards, one it touches not in the ordered set. -/
structure Moved (w : TimerWorld) (d : TimerDispatcher) (posts : ℕ) (o : Obs) : Prop where
  sets : SetInv d posts
  moves : Moves w.posts w.dispatcher d
  le : w.posts ≤ posts
  fires : o.fires = none
  ends : ∀ u, o.ends = some u → u ≤ posts ∧
    ∀ a ∈ d.allTimers, (d.heap a).map TimerImpl.uid ≠ some u
  touches : ∀ u, o.touches = some u → ∀ a ∈ d.timers, (d.heap a).map TimerImpl.uid ≠ some u

/-- What a step is: a move, the clock, a stale handle, or something of `poll()`. -/
inductive TimerStep (w : TimerWorld) : TimerAct → TimerWorld → Prop
  | tick (now : Timeval) : TimerStep w (.tick now) { w with dispatcher.clock := now }
  | stale (a : TimerAct) : TimerStep w a w
  | move (a : TimerAct) {d : TimerDispatcher} {posts : ℕ} {o : Obs} (h : Moved w d posts o) :
      TimerStep w a { w with dispatcher := d, posts, log := o :: w.log }
  | poll (now : Timeval) : TimerStep w (.poll now) (w.poll now)
  | ret {b : TimerActivation} (hb : b ∈ w.active) : TimerStep w (.ret b.no) (w.ret b)
  | throw (no : ℕ) : TimerStep w (.throw no)
      { w with active := w.active.filter fun b => b.no ≠ no }

theorem TimerDispatcher.valid_eq_some {generation : UInt32} (h : d.valid t generation = some x) :
    t ∈ d.allTimers ∧ d.heap t = some x ∧ x.generation = generation := by
  unfold valid at h
  split at h
  · obtain ⟨hx, hg⟩ := filter_eq_some_iff.1 h
    exact ⟨‹_›, hx, of_decide_eq_true hg⟩
  · nomatch h

section

variable (h : SetInv w.dispatcher w.posts)
include h

theorem SetInv.posted (hfree : w.dispatcher.heap t = none) (duration : Timeval) :
    Moved w (w.dispatcher.post (w.posts + 1) t duration) (w.posts + 1) (.posted (w.posts + 1)) := by
  obtain ⟨hd, hm⟩ := h.post hfree duration
  refine ⟨hd, hm, Nat.le_succ _, rfl, nofun, ?_⟩
  intro u hu a ha he
  cases hu
  obtain ⟨ha, hheap⟩ := hm.timers a ha
  rw [hheap] at he
  obtain ⟨x, hx, hxu⟩ := map_eq_some_iff.1 he
  have := (h.impl a x hx).2
  omega

theorem SetInv.retimed (ht : t ∈ w.dispatcher.allTimers) (hx : w.dispatcher.heap t = some x)
    (when : Timeval) :
    Moved w (w.dispatcher.setTimeout t x when) w.posts (.retimed x.uid) := by
  obtain ⟨hd, hnt, hm⟩ := h.setTimeout ht hx when
  refine ⟨hd, hm, le_rfl, rfl, nofun, ?_⟩
  intro u hu a ha he
  cases hu
  have hheap := hm.timers a ha
  rw [hheap.2] at he
  obtain ⟨y, hy, hyu⟩ := map_eq_some_iff.1 he
  obtain rfl := h.uid_inj a t y x hy hx hyu
  exact hnt ha

theorem SetInv.cancelled (ht : t ∈ w.dispatcher.allTimers) (hx : w.dispatcher.heap t = some x) :
    Moved w { w.dispatcher.cancel t x with heap := update (w.dispatcher.cancel t x).heap t none }
      w.posts (.cancelled x.uid) := by
  obtain ⟨hd, hnot, hm⟩ := h.cancel ht hx
  have hne : ∀ a ∈ (w.dispatcher.cancel t x).allTimers, a ≠ t := fun a ha he => hnot (he ▸ ha)
  have hnone := hd.setHeap hnot none nofun
  have hm' : Moves w.posts w.dispatcher { w.dispatcher.cancel t x with
      heap := update (w.dispatcher.cancel t x).heap t none } := by
    refine ⟨fun a ha => ?_, fun a ha => ?_, fun a ha hne => ?_, hm.serial⟩
    · have hat := hne a ((hd.mem_all a).2 (.inl ha))
      exact ⟨(hm.timers a ha).1, (update_of_ne hat _ _).trans (hm.timers a ha).2⟩
    · simp only [update_of_ne (hne a ha)]
      exact hm.all a ha
    · exact (update_of_ne (fun he : a = t => ha (he ▸ ht)) _ _).trans (hm.other a ha hne)
  refine ⟨hnone, hm', le_rfl, rfl, ?_, nofun⟩
  intro u hu
  cases hu
  refine ⟨(h.impl t x hx).2, fun a ha he => ?_⟩
  simp only [update_of_ne (hne a ha)] at he
  rcases hm.all a ha with ⟨-, hu⟩ | ⟨-, hu⟩
  · rw [hu] at he
    obtain ⟨y, hy, hyu⟩ := map_eq_some_iff.1 he
    exact hne a ha (h.uid_inj a t y x hy hx hyu)
  · have := some.inj (hu.symm.trans he)
    have := (h.impl t x hx).2
    omega

theorem SetInv.step (hstep : w.step a = some w') : TimerStep w a w' := by
  cases a with
  | tick now =>
    obtain ⟨-, rfl⟩ := of_guard hstep
    exact .tick now
  | post t duration =>
    obtain ⟨hfree, rfl⟩ := of_guard hstep
    exact .move _ (h.posted hfree duration)
  | cancel | delay | reset =>
    simp only [step] at hstep
    split at hstep
    · cases hstep
      exact .stale _
    · rename_i x hvalid
      cases hstep
      obtain ⟨ht, hx, -⟩ := valid_eq_some hvalid
      first
        | exact .move _ (h.cancelled ht hx)
        | exact .move _ (h.retimed ht hx _)
  | poll now =>
    obtain ⟨-, rfl⟩ := of_guard hstep
    exact .poll now
  | ret no =>
    obtain ⟨b, hb, rfl⟩ := map_eq_some_iff.1 hstep
    obtain rfl : b.no = no := by simpa using find?_some hb
    exact .ret (mem_of_find?_eq_some hb)
  | throw no =>
    obtain ⟨-, rfl⟩ := of_guard hstep
    exact .throw no

end

/-- What one turn of the loop does. -/
theorem TimerWorld.fire_cases (w : TimerWorld) (no : ℕ) (serial : UInt32) (now : Timeval) :
    w.fire no serial now = w ∨ ∃ t ts x, w.dispatcher.timers = t :: ts ∧
      w.dispatcher.heap t = some x ∧ x.time < now ∧ w.fire no serial now = { w with
        dispatcher.timers := ts
        dispatcher.allTimers := w.dispatcher.allTimers.erase t
        active := ⟨no, serial, now, t⟩ :: w.active
        log := .fired no x.uid x.time x.generation now :: w.log } := by
  unfold fire
  split
  · exact .inl rfl
  · split
    · exact .inl rfl
    · split
      · exact .inl rfl
      · exact .inr ⟨_, _, _, ‹_›, ‹_›, not_le.1 ‹_›, rfl⟩

/-! ### Handles -/

namespace HandleInv

variable (h : HandleInv w)
include h

theorem move {posts : ℕ} {o : Obs} (hm : Moved w d posts o) :
    HandleInv { w with dispatcher := d, posts, log := o :: w.log } := by
  refine ⟨hm.sets, fun b hb => ?_, h.apart, fun p hp u hu => ?_⟩
  · obtain ⟨hno, hall, hheap⟩ := h.active b hb
    refine ⟨hno, fun hb' => ?_, ?_⟩
    · rcases hm.moves.all _ hb' with ⟨hold, -⟩ | ⟨hnone, -⟩
      · exact hall hold
      · exact hheap hnone
    · rw [hm.moves.other _ hall hheap]
      exact hheap
  · rcases mem_cons.1 hp with rfl | hp
    · exact hm.ends u hu
    obtain ⟨hle, hdead⟩ := h.dead p hp u hu
    refine ⟨hle.trans hm.le, fun a ha => ?_⟩
    rcases hm.moves.all a ha with ⟨hold, he⟩ | ⟨-, he⟩ <;> rw [he]
    · exact hdead a hold
    · intro hu'
      have := some.inj hu'
      omega

/-- An activation in no callback fires the first timer of the set. -/
theorem fire {no : ℕ} (hno : no < w.polls) (hactive : ∀ b ∈ w.active, no ≠ b.no)
    (serial : UInt32) (now : Timeval) : HandleInv (w.fire no serial now) := by
  rcases w.fire_cases no serial now with he | ⟨t, ts, x, htimers, hx, -, he⟩
  · rw [he]
    exact h
  have ht : t ∈ w.dispatcher.timers := htimers ▸ mem_cons_self
  have hall : t ∈ w.dispatcher.allTimers := (h.sets.mem_all t).2 (.inl ht)
  have hnot : t ∉ w.dispatcher.allTimers.erase t := h.sets.nodup_all.not_mem_erase
  have hsets := h.sets.leaveTimers ht
  rw [htimers, erase_cons_head] at hsets
  rw [he]
  refine ⟨hsets, fun b hb => ?_, ?_, fun o ho u hu => ?_⟩
  · rcases mem_cons.1 hb with rfl | hb
    · exact ⟨hno, hnot, by simp [hx]⟩
    · obtain ⟨hlt, hb', hheap⟩ := h.active b hb
      exact ⟨hlt, fun hm => hb' (mem_of_mem_erase hm), hheap⟩
  · refine pairwise_cons.2 ⟨fun b hb => ⟨hactive b hb, fun he => ?_⟩, h.apart⟩
    exact (h.active b hb).2.1 (he ▸ hall)
  · rcases mem_cons.1 ho with rfl | ho
    · cases hu
      refine ⟨(h.sets.impl t x hx).2, fun a ha he => ?_⟩
      obtain ⟨y, hy, hyu⟩ := map_eq_some_iff.1 he
      exact hnot (h.sets.uid_inj a t y x hy hx hyu ▸ ha)
    · obtain ⟨hle, hdead⟩ := h.dead o ho u hu
      exact ⟨hle, fun a ha => hdead a (mem_of_mem_erase ha)⟩

/-- The applicants are admitted. -/
theorem began (hposts : w.posts < 2 ^ 32) (now : Timeval) : HandleInv { w with
    dispatcher := w.dispatcher.admitApplicants now
    polls := w.polls + 1
    log := .began w.polls :: w.log } := by
  refine ⟨(h.sets.admitApplicants hposts now).1, fun b hb => ?_, h.apart, fun o ho u hu => ?_⟩
  · obtain ⟨hlt, hall, hheap⟩ := h.active b hb
    refine ⟨hlt.trans (Nat.lt_succ_self _), hall, fun hnone => hheap ?_⟩
    have huid := w.dispatcher.admitApplicants_uid now b.timer
    rw [hnone] at huid
    exact map_eq_none_iff.1 huid.symm
  · have ho := (mem_cons.1 ho).resolve_left (by
      rintro rfl
      nomatch hu)
    obtain ⟨hle, hdead⟩ := h.dead o ho u hu
    refine ⟨hle, fun a ha => ?_⟩
    rw [w.dispatcher.admitApplicants_uid now]
    exact hdead a ha

/-- The timer of an activation is deleted and the activation taken off. -/
theorem drop {b : TimerActivation} (hb : b ∈ w.active) : HandleInv { w with
    dispatcher.heap := update w.dispatcher.heap b.timer none
    active := w.active.filter fun c => c.no ≠ b.no } := by
  obtain ⟨-, hall, -⟩ := h.active b hb
  have hne : ∀ a ∈ w.dispatcher.allTimers, a ≠ b.timer := fun a ha he => hall (he ▸ ha)
  refine ⟨h.sets.setHeap hall none nofun, fun c hc => ?_, h.apart.filter _, fun o ho u hu => ?_⟩
  · obtain ⟨hc, hcb⟩ := mem_filter.1 hc
    obtain ⟨hlt, hc', hheap⟩ := h.active c hc
    refine ⟨hlt, hc', ?_⟩
    have hcb : c ≠ b := fun he => of_decide_eq_true hcb (congrArg TimerActivation.no he)
    have : Std.Symm fun b c : TimerActivation => b.no ≠ c.no ∧ b.timer ≠ c.timer :=
      ⟨fun _ _ h => ⟨h.1.symm, h.2.symm⟩⟩
    have htimer := (h.apart.forall hc hb hcb).2
    simp only [update_of_ne htimer]
    exact hheap
  · obtain ⟨hle, hdead⟩ := h.dead o ho u hu
    refine ⟨hle, fun a ha => ?_⟩
    simp only [update_of_ne (hne a ha)]
    exact hdead a ha

theorem step (hposts : w.posts < 2 ^ 32) (hstep : w.step a = some w') : HandleInv w' := by
  cases h.sets.step hstep with
  | tick => exact { h with sets := { h.sets with } }
  | stale => exact h
  | move _ hm => exact h.move hm
  | poll now =>
    exact (h.began hposts now).fire (Nat.lt_succ_self _) (fun b hb => (h.active b hb).1.ne') _ now
  | @ret b hb =>
    unfold TimerWorld.ret
    split
    · exact h.drop hb
    · refine (h.drop hb).fire (h.active b hb).1 (fun c hc => ?_) _ _
      exact (of_decide_eq_true (mem_filter.1 hc).2).symm
  | throw no =>
    exact { h with
      active := fun b hb => h.active b (mem_of_mem_filter hb)
      apart := h.apart.filter _ }

end HandleInv

/-! ### Steps outside the loop of `poll()` -/

theorem TimerInv.move (h : TimerInv w) {posts : ℕ} {o : Obs} (hm : Moved w d posts o) :
    TimerInv { w with dispatcher := d, posts, log := o :: w.log } := by
  have hw := h.handles.move hm
  refine ⟨hw.sets, hm.moves.serial.trans h.serial, fun b hb => ⟨(h.active b hb).1, hw.active b hb⟩,
    hw.apart, hw.dead, fun no hno a ha p hp u hu => ?_, fun no u t g n hp => ?_,
    h.log.cons hm.fires⟩
  · have hp : p = o ∨ p ∈ w.log.takeWhile (· ≠ .began no) := by
      rw [takeWhile_cons] at hp
      split at hp
      · exact mem_cons.1 hp
      · nomatch hp
    rcases hp with rfl | hp
    · exact hm.touches u hu a ha
    · rw [(hm.moves.timers a ha).2]
      exact h.fresh no hno a (hm.moves.timers a ha).1 p hp u hu
  · have hp : Obs.fired no u t g n ∈ w.log := by
      refine (mem_cons.1 hp).resolve_left fun he => some_ne_none u ?_
      rw [← hm.fires, ← he]
      rfl
    obtain ⟨hno, hbehind⟩ := h.behind no u t g n hp
    refine ⟨hno, fun hn a ha k hk => hbehind hn a (hm.moves.timers a ha).1 k ?_⟩
    rwa [Heap.key, ← (hm.moves.timers a ha).2]

section

variable (h : TimerInv w)
include h

/-! ### The loop of `poll()` -/

/-- The newest activation, in no callback, fires the first timer of the set. -/
theorem TimerInv.fire {no : ℕ} {serial : UInt32} (hno : no + 1 = w.polls)
    (hserial : serial = UInt32.ofNat (no + 1)) (hactive : ∀ b ∈ w.active, no ≠ b.no)
    (now : Timeval) : TimerInv (w.fire no serial now) := by
  have hw := h.handles.fire (hno ▸ no.lt_succ_self) hactive serial now
  rcases w.fire_cases no serial now with he | ⟨t, ts, x, htimers, hx, hdue, he⟩
  · rw [he]
    exact h
  rw [he] at hw ⊢
  have ht : t ∈ w.dispatcher.timers := htimers ▸ mem_cons_self
  have hts : ∀ a ∈ ts, a ∈ w.dispatcher.timers := fun a ha => htimers ▸ mem_cons_of_mem t ha
  have hless : ∀ a ∈ ts, w.dispatcher.heap.less t a = true := by
    have hsorted := h.sets.sorted
    rw [htimers] at hsorted
    exact (pairwise_cons.1 hsorted).1
  have hkey : w.dispatcher.heap.key t = some x.key := by rw [Heap.key, hx]; rfl
  refine ⟨hw.sets, h.serial, fun b hb => ⟨?_, hw.active b hb⟩, hw.apart, hw.dead,
    fun no' hno' a ha o ho u hu => ?_, fun no' u t' g n hm => ?_, ?_⟩
  · rcases mem_cons.1 hb with rfl | hb
    · exact hserial
    · exact (h.active b hb).1
  · rcases mem_cons.1 ho with rfl | ho
    · cases hu
    · exact h.fresh no' hno' a (hts a ha) o ho u hu
  · rcases mem_cons.1 hm with he | hm
    · obtain ⟨rfl, -, rfl, rfl, -⟩ := Obs.fired.inj he
      refine ⟨by simp only; omega, fun _ a ha k hk => ?_⟩
      obtain ⟨k', l, hk', hl, hlt⟩ := Heap.less_iff.1 (hless a ha)
      obtain rfl := some.inj (hkey.symm.trans hk')
      obtain rfl := some.inj (hk.symm.trans hl)
      exact hlt
    · obtain ⟨hlt, hbehind⟩ := h.behind no' u t' g n hm
      exact ⟨hlt, fun he a ha => hbehind he a (hts a ha)⟩
  · refine ⟨fun no' u t' g n hm => ?_, ?_, ?_, fun no' u t' g n l hl => ?_⟩
    · rcases mem_cons.1 hm with he | hm
      · obtain ⟨-, -, rfl, -, rfl⟩ := Obs.fired.inj he
        exact hdue
      · exact h.log.due no' u t' g n hm
    · refine pairwise_cons.2 ⟨fun o ho u hu he => ?_, h.log.once⟩
      cases hu
      exact (h.dead o ho _ he).2 t ((h.sets.mem_all t).2 (.inl ht)) (by rw [hx]; rfl)
    · refine pairwise_cons.2 ⟨?_, h.log.ordered⟩
      rintro o ho no' u t' g n u' t'' g' n' he rfl
      obtain ⟨rfl, -, rfl, rfl, -⟩ := Obs.fired.inj he
      exact (h.behind no u' t'' g' n' ho).2 hno t ht _ hkey
    · rcases suffix_cons_iff.1 hl with he | hl
      · obtain ⟨hf, rfl⟩ := cons.inj he
        obtain ⟨rfl, rfl, -⟩ := Obs.fired.inj hf
        intro o ho hu
        exact h.fresh _ hno t ht o ho _ hu (by rw [hx]; rfl)
      · exact h.log.untouched no' u t' g n l hl

/-- A new poll admits the applicants and starts its loop. -/
theorem TimerInv.poll (hposts : w.posts < 2 ^ 32) (now : Timeval) : TimerInv (w.poll now) := by
  have hserial : (w.dispatcher.admitApplicants now).serial = UInt32.ofNat (w.polls + 1) := by
    rw [UInt32.ofNat_add, ← h.serial]
    rfl
  have hbegan : TimerInv { w with
      dispatcher := w.dispatcher.admitApplicants now
      polls := w.polls + 1
      log := .began w.polls :: w.log } := by
    have hw := h.handles.began hposts now
    refine ⟨hw.sets, hserial, fun b hb => ⟨(h.active b hb).1, hw.active b hb⟩, hw.apart,
      hw.dead, fun no hno a ha o ho => ?_, fun no u t g n hm => ?_, h.log.cons rfl⟩
    · -- the log of the new poll starts with its own beginning
      obtain rfl : no = w.polls := Nat.succ.inj hno
      rw [takeWhile_cons_of_neg (by simp)] at ho
      nomatch ho
    · have hm := (mem_cons.1 hm).resolve_left Obs.noConfusion
      have hlt := (h.behind no u t g n hm).1
      exact ⟨hlt.trans (Nat.lt_succ_self _), fun he => absurd (Nat.succ.inj he) hlt.ne⟩
  exact hbegan.fire rfl hserial (fun b hb => (h.active b hb).2.1.ne') now

/-- The timer of an activation is deleted and the activation taken off. -/
theorem TimerInv.drop {b : TimerActivation} (hb : b ∈ w.active) :
    TimerInv { w with
      dispatcher.heap := update w.dispatcher.heap b.timer none
      active := w.active.filter fun c => c.no ≠ b.no } := by
  have hw := h.handles.drop hb
  have hne : ∀ a ∈ w.dispatcher.timers, a ≠ b.timer := fun a ha he =>
    (h.active b hb).2.2.1 (he ▸ (h.sets.mem_all a).2 (.inl ha))
  refine ⟨hw.sets, h.serial, fun c hc => ⟨(h.active c (mem_of_mem_filter hc)).1, hw.active c hc⟩,
    hw.apart, hw.dead, fun no hno a ha => ?_, fun no u t g n hm => ?_, h.log⟩
  · simp only [update_of_ne (hne a ha)]
    exact h.fresh no hno a ha
  · obtain ⟨hlt, hbehind⟩ := h.behind no u t g n hm
    refine ⟨hlt, fun he a ha k hk => hbehind he a ha k ?_⟩
    simp only [Heap.key, update_of_ne (hne a ha)] at hk ⊢
    exact hk

/-- An activation that returns from its callback goes on only if it is the newest,
unless `2^32` polls have begun since. -/
theorem TimerInv.ret {b : TimerActivation} (hb : b ∈ w.active)
    (hsoon : w.polls < b.no + 1 + 2 ^ 32) : TimerInv (w.ret b) := by
  obtain ⟨hs, hlt, -⟩ := h.active b hb
  unfold TimerWorld.ret
  split_ifs with hserial
  · exact h.drop hb
  have hserial := (not_not.1 hserial).symm.trans hs
  refine (h.drop hb).fire ?_ hs (fun c hc => ?_) _
  · have he := congrArg UInt32.toNat (h.serial.symm.trans hserial)
    simp only [UInt32.toNat_ofNat'] at he
    show b.no + 1 = w.polls
    omega
  · exact (of_decide_eq_true (mem_filter.1 hc).2).symm

/-- An activation that an exception leaves. -/
theorem TimerInv.throw (no : ℕ) :
    TimerInv { w with active := w.active.filter fun b => b.no ≠ no } :=
  { h with
    active := fun b hb => h.active b (mem_of_mem_filter hb)
    apart := h.apart.filter _ }

end

/-! ### Whole runs -/

/-- No activation is resumed after `2^32` or more polls began since it did. -/
def Resumable (w : TimerWorld) : TimerAct → Prop
  | .ret no => w.polls < no + 1 + 2 ^ 32
  | _ => True

theorem TimerWorld.fire_same (w : TimerWorld) (no : ℕ) (serial : UInt32) (now : Timeval) :
    (w.fire no serial now).posts = w.posts ∧
      (w.fire no serial now).dispatcher.heap = w.dispatcher.heap := by
  rcases w.fire_cases no serial now with he | ⟨t, ts, x, -, -, -, he⟩ <;> simp [he]

theorem TimerWorld.posts_le_of_step (h : w.step a = some w') : w.posts ≤ w'.posts := by
  cases a <;> simp only [step] at h
  case tick | post | poll | throw =>
    split at h <;> cases h
    simp [poll, fire_same]
  case cancel | delay | reset => split at h <;> cases h <;> exact le_rfl
  case ret no =>
    obtain ⟨b, -, rfl⟩ := map_eq_some_iff.1 h
    unfold ret
    split
    · exact le_rfl
    · rw [(fire_same ..).1]

/-- **One step keeps the invariant.** -/
theorem TimerInv.step (h : TimerInv w) (hC : Resumable w a)
    (hposts : w.posts < 2 ^ 32) (hstep : w.step a = some w') : TimerInv w' := by
  cases h.sets.step hstep with
  | tick => exact { h with sets := { h.sets with } }
  | stale => exact h
  | move _ hm => exact h.move hm
  | poll now => exact h.poll hposts now
  | ret hb => exact h.ret hb hC
  | throw no => exact h.throw no

/-- **The invariant holds in every state reached with fewer than `2^32` posts.** -/
theorem TimerInv.run {clock : Timeval} {as : List TimerAct}
    (hC : Along TimerWorld.step Resumable (TimerWorld.initial clock) as)
    (hrun : run TimerWorld.step (TimerWorld.initial clock) as = some w)
    (hposts : w.posts < 2 ^ 32) : TimerInv w := by
  refine run_invariant_of_along (I := fun w => w.posts < 2 ^ 32 → TimerInv w)
    (fun s a t hs hC ht hlt => ?_) (fun _ => TimerInv.initial clock) hC hrun hposts
  have hs' : s.posts < 2 ^ 32 := (posts_le_of_step ht).trans_lt hlt
  exact (hs hs').step hC hs' ht

/-- A timer that stays in the ordered set over a step is not changed by it. -/
theorem TimerInv.heap_eq_of_step (h : TimerInv w) (hstep : w.step a = some w')
    (ht : t ∈ w.dispatcher.timers) (ht' : t ∈ w'.dispatcher.timers) :
    w'.dispatcher.heap t = w.dispatcher.heap t := by
  cases h.sets.step hstep with
  | tick | stale | throw => rfl
  | move _ hm => exact (hm.moves.timers t ht').2
  | poll now =>
    simp only [TimerWorld.poll, fire_same]
    exact if_neg (h.sets.disjoint ht)
  | @ret b hb =>
    have hne : t ≠ b.timer := fun he => (h.active b hb).2.2.1 (he ▸ (h.sets.mem_all t).2 (.inl ht))
    have hdrop : update w.dispatcher.heap b.timer none t = w.dispatcher.heap t :=
      update_of_ne hne _ _
    unfold TimerWorld.ret
    split
    · exact hdrop
    · rw [(fire_same ..).2]
      exact hdrop

/-- What the dispatcher promises in a state: about its sets, about the timers that a step
leaves in the ordered set, and about what has happened so far. -/
structure TimerDispatchOk (w : TimerWorld) : Prop where
  union : w.dispatcher.allTimers.Perm (w.dispatcher.timers ++ w.dispatcher.applicants) ∧
    (w.dispatcher.timers ++ w.dispatcher.applicants).Nodup
  admitted : ∀ t ∈ w.dispatcher.allTimers, ∃ x, w.dispatcher.heap t = some x ∧
    (x.admitted = true ↔ t ∈ w.dispatcher.timers)
  time_kept : ∀ a w', w.step a = some w' → ∀ t ∈ w.dispatcher.timers, t ∈ w'.dispatcher.timers →
    (w'.dispatcher.heap t).map TimerImpl.time = (w.dispatcher.heap t).map TimerImpl.time
  log : LogOk w.log

/-- **Timer dispatch is exactly-once, ordered and cancellable** in every run that posts fewer
than `2^32` timers and resumes no activation after `2^32` polls. -/
theorem timer_dispatch (clock : Timeval) (as : List TimerAct) (w : TimerWorld)
    (hrun : run TimerWorld.step (TimerWorld.initial clock) as = some w)
    (hposts : w.posts < 2 ^ 32)
    (hC : Along TimerWorld.step Resumable (TimerWorld.initial clock) as) :
    TimerDispatchOk w := by
  have h := TimerInv.run hC hrun hposts
  refine ⟨h.sets.perm_all, fun t ht => h.sets.exists_impl ht, fun a w' hstep t ht ht' => ?_, h.log⟩
  rw [h.heap_eq_of_step hstep ht ht']

/-- Three timers; the callback of the first to expire resets the second and cancels the
third, and polls again before it returns. -/
def resetAndCancel : List TimerAct :=
  [.post 0 ⟨1, 0⟩, .post 1 ⟨2, 0⟩, .post 2 ⟨3, 0⟩, .poll ⟨9, 0⟩, .reset 1 2 ⟨1, 0⟩, .cancel 2 3,
    .poll ⟨11, 0⟩, .ret 0, .ret 1]

/-- The hypotheses of `timer_dispatch` are satisfiable: in `resetAndCancel` the first
timer is fired by the first poll, the second one by the poll that runs inside it. -/
theorem timer_dispatch_resetAndCancel :
    ∃ w, run TimerWorld.step (TimerWorld.initial ⟨0, 0⟩) resetAndCancel = some w ∧
      w.log.filterMap Obs.fires = [2, 1] ∧ TimerDispatchOk w :=
  ⟨_, rfl, rfl, timer_dispatch ⟨0, 0⟩ resetAndCancel _ rfl (by decide)
    (.cons trivial rfl <| .cons trivial rfl <| .cons trivial rfl <| .cons trivial rfl <|
      .cons trivial rfl <| .cons trivial rfl <| .cons trivial rfl <|
      .cons (show 2 < 0 + 1 + 2 ^ 32 by decide) rfl <|
      .cons (show 2 < 1 + 1 + 2 ^ 32 by decide) rfl trivial)⟩

/-! ### Stale handles -/

/-- `Timer::get_time`. -/
def TimerDispatcher.getTime (d : TimerDispatcher) (t : ℕ) (generation : UInt32) : Timeval :=
  match d.valid t generation with
  | some impl => impl.time
  | none => ⟨0, 0⟩

/-- An operation through the handle, or a copy of it. -/
def TimerAct.Through (t : ℕ) (generation : UInt32) : TimerAct → Prop
  | .cancel t' g | .delay t' g _ _ | .reset t' g _ => t' = t ∧ g = generation
  | _ => False

/-- The timer at `b` and the sets it is in are as they were. -/
def Untouched (d d' : TimerDispatcher) (b : ℕ) : Prop :=
  d'.heap b = d.heap b ∧ (b ∈ d'.timers ↔ b ∈ d.timers) ∧
    (b ∈ d'.applicants ↔ b ∈ d.applicants) ∧ (b ∈ d'.allTimers ↔ b ∈ d.allTimers)

theorem HandleInv.run {as : List TimerAct} (h : w.posts < 2 ^ 32 → HandleInv w)
    (hrun : run TimerWorld.step w as = some w') (hposts : w'.posts < 2 ^ 32) :
    HandleInv w' ∧ w.posts ≤ w'.posts := by
  have hinv : w.posts ≤ w'.posts ∧ (w'.posts < 2 ^ 32 → HandleInv w') := by
    refine run_invariant (I := fun v => w.posts ≤ v.posts ∧ (v.posts < 2 ^ 32 → HandleInv v))
      (fun s a v hs hv => ?_) ⟨le_rfl, h⟩ hrun
    have hle := posts_le_of_step hv
    exact ⟨hs.1.trans hle, fun hlt => (hs.2 (hle.trans_lt hlt)).step (hle.trans_lt hlt) hv⟩
  exact ⟨hinv.2 hposts, hinv.1⟩

/-- Only the timer itself is moved. -/
theorem SetInv.untouched_cancel {posts b : ℕ} (h : SetInv d posts) (ht : t ∈ d.allTimers)
    (hx : d.heap t = some x) (hb : b ≠ t) : Untouched d (d.cancel t x) b := by
  obtain ⟨y, hy, hadm⟩ := h.exists_impl ht
  obtain rfl := some.inj (hx.symm.trans hy)
  unfold TimerDispatcher.cancel
  split
  · rw [h.sorted.erase_eq (hadm.1 ‹_›)]
    exact ⟨update_of_ne hb _ _, mem_erase_of_ne hb, Iff.rfl, mem_erase_of_ne hb⟩
  · exact ⟨rfl, Iff.rfl, mem_erase_of_ne hb, mem_erase_of_ne hb⟩

theorem SetInv.untouched_setTimeout {posts b : ℕ} (h : SetInv d posts) (ht : t ∈ d.allTimers)
    (hx : d.heap t = some x) (hb : b ≠ t) (when : Timeval) :
    Untouched d (d.setTimeout t x when) b := by
  obtain ⟨hheap, htimers, happ, hall⟩ := h.untouched_cancel ht hx hb
  exact ⟨(update_of_ne hb _ _).trans hheap, htimers,
    mem_setInsert.trans ((or_iff_right hb).trans happ),
    mem_setInsert.trans ((or_iff_right hb).trans hall)⟩

/-- A handle that is valid is so for the timer it was returned for, which has not ended. -/
theorem HandleInv.valid (h : HandleInv w) (hposts : w.posts < 2 ^ 32) {uid : ℕ}
    (huid : uid ≤ w.posts) (hv : w.dispatcher.valid t (UInt32.ofNat uid) = some x) :
    t ∈ w.dispatcher.allTimers ∧ w.dispatcher.heap t = some x ∧ x.uid = uid ∧
      ∀ o ∈ w.log, o.ends ≠ some uid := by
  obtain ⟨ht, hx, hg⟩ := valid_eq_some hv
  obtain ⟨hgen, hle⟩ := h.sets.impl t x hx
  obtain rfl : x.uid = uid := generation_inj (by omega) (by omega) (hgen.symm.trans hg)
  exact ⟨ht, hx, rfl, fun o ho hends => (h.dead o ho _ hends).2 t ht (by rw [hx]; rfl)⟩

/-- An operation through a handle leaves the other timers alone, and all if it is not valid. -/
theorem HandleInv.through (h : HandleInv w) (hposts : w.posts < 2 ^ 32) {uid : ℕ}
    (huid : uid ≤ w.posts) (ha : a.Through t (UInt32.ofNat uid)) :
    ∃ w', w.step a = some w' ∧ (w.dispatcher.valid t (UInt32.ofNat uid) = none → w' = w) ∧
      ∀ b, (w.dispatcher.heap b).map TimerImpl.uid ≠ some uid →
        Untouched w.dispatcher w'.dispatcher b := by
  cases hv : w.dispatcher.valid t (UInt32.ofNat uid) with
  | none =>
    refine ⟨w, ?_, fun _ => rfl, fun _ _ => ⟨rfl, Iff.rfl, Iff.rfl, Iff.rfl⟩⟩
    cases a <;> simp_all [TimerAct.Through, TimerWorld.step]
  | some x =>
    obtain ⟨ht, hx, hu, -⟩ := h.valid hposts huid hv
    have hne : ∀ b, (w.dispatcher.heap b).map TimerImpl.uid ≠ some uid → b ≠ t := by
      rintro b hb rfl
      exact hb (by rw [hx, ← hu]; rfl)
    cases a with
    | cancel =>
      obtain ⟨rfl, rfl⟩ := ha
      simp only [TimerWorld.step, hv]
      refine ⟨_, rfl, nofun, fun b hb => ?_⟩
      obtain ⟨hheap, hsets⟩ := h.sets.untouched_cancel ht hx (hne b hb)
      exact ⟨(update_of_ne (hne b hb) _ _).trans hheap, hsets⟩
    | delay | reset =>
      obtain ⟨rfl, rfl⟩ := ha
      simp only [TimerWorld.step, hv]
      exact ⟨_, rfl, nofun, fun b hb => h.sets.untouched_setTimeout ht hx (hne b hb) _⟩
    | tick | post | poll | ret | throw => exact ha.elim

/-- **Stale handles are inert.**  The handle that a post returned is used in any later state, in
which addresses may have been given to other timers.  The operations through it leave all but
its own timer as they were, and everything once this timer was fired or cancelled; and the time
it reads is that of its own timer, or zero, and zero once this timer has ended. -/
theorem handle_own_timer (clock duration : Timeval) (as bs : List TimerAct) {w₀ w₁ : TimerWorld}
    (hrun₀ : run TimerWorld.step (TimerWorld.initial clock) as = some w₀)
    (hpost : w₀.step (.post t duration) = some w₁)
    (hrun : run TimerWorld.step w₁ bs = some w) (hposts : w.posts < 2 ^ 32) :
    (∀ a : TimerAct, a.Through t w₁.dispatcher.nextGeneration → ∃ w', w.step a = some w' ∧
      ((∃ o ∈ w.log, o.ends = some w₁.posts) → w' = w) ∧
      ∀ b, (w.dispatcher.heap b).map TimerImpl.uid ≠ some w₁.posts →
        Untouched w.dispatcher w'.dispatcher b) ∧
    (w.dispatcher.getTime t w₁.dispatcher.nextGeneration = ⟨0, 0⟩ ∨
      (∀ o ∈ w.log, o.ends ≠ some w₁.posts) ∧ ∃ x, w.dispatcher.heap t = some x ∧
        x.uid = w₁.posts ∧ w.dispatcher.getTime t w₁.dispatcher.nextGeneration = x.time) := by
  have hstart := TimerInv.initial clock
  have hrun1 : run TimerWorld.step (TimerWorld.initial clock) (as ++ [.post t duration]) =
      some w₁ := by
    rw [run_append, hrun₀, Option.bind_some, run_cons_eq_some]
    exact ⟨w₁, hpost, rfl⟩
  obtain ⟨h, hle⟩ := HandleInv.run (fun hlt => (HandleInv.run (fun _ => hstart.handles)
    hrun1 hlt).1) hrun hposts
  obtain ⟨h1, -⟩ := HandleInv.run (fun _ => hstart.handles) hrun1 (hle.trans_lt hposts)
  rw [h1.sets.gen]
  refine ⟨fun a ha => ?_, ?_⟩
  · obtain ⟨w', hs, hstale, hother⟩ := h.through hposts hle ha
    refine ⟨w', hs, fun ⟨o, ho, hends⟩ => hstale (Option.eq_none_iff_forall_ne_some.2 ?_), hother⟩
    exact fun x hv => (h.valid hposts hle hv).2.2.2 o ho hends
  · cases hv : w.dispatcher.valid t (UInt32.ofNat w₁.posts) with
    | none =>
      left
      simp only [getTime, hv]
    | some x =>
      obtain ⟨-, hx, hu, hdead⟩ := h.valid hposts hle hv
      refine .inr ⟨hdead, x, hx, hu, ?_⟩
      simp only [getTime, hv]

/-- A timer is fired and its address given to another, which the handle of the first leaves. -/
theorem handle_own_timer_reused :
    ∃ w₁ w, (TimerWorld.initial ⟨0, 0⟩).step (.post 7 ⟨1, 0⟩) = some w₁ ∧
      run TimerWorld.step w₁ [.poll ⟨2, 0⟩, .ret 0, .post 7 ⟨1, 0⟩] = some w ∧
      w.dispatcher.allTimers = [7] ∧ w.step (.cancel 7 1) = some w := by
  refine ⟨_, _, rfl, rfl, rfl, ?_⟩
  obtain ⟨w', hs, hsame, -⟩ := (handle_own_timer ⟨0, 0⟩ ⟨1, 0⟩ []
    [.poll ⟨2, 0⟩, .ret 0, .post 7 ⟨1, 0⟩] rfl rfl rfl (by decide)).1 (.cancel 7 1) ⟨rfl, rfl⟩
  rw [hs, hsame (by decide)]

end NoxClassic.Dispatch
