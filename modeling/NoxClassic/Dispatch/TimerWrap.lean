/-
# When `serial` comes back

`poll()` compares the `serial` it took with the dispatcher's to find out whether
another poll ran while its callback blocked ("Detects timer dispatch that
blocked").  Both are `unsigned int`s.  An activation that stays blocked while
`2^32` polls begin finds its own number again and goes on firing, with the `now`
it took at its start, timers that were posted long after.
-/

import NoxClassic.Dispatch.TimerRun

namespace NoxClassic.Dispatch

open Option TimerWorld Lib

/-- A poll that finds nothing to admit or to fire. -/
theorem TimerWorld.step_poll_idle {w : TimerWorld} {now : Timeval} (ht : w.dispatcher.timers = [])
    (ha : w.dispatcher.applicants = []) (hc : w.dispatcher.clock = now) :
    w.step (.poll now) = some { w with
      dispatcher.serial := w.dispatcher.serial + 1
      polls := w.polls + 1
      log := .began w.polls :: w.log } := by
  have hadmit : w.dispatcher.admitApplicants now =
      { w.dispatcher with serial := w.dispatcher.serial + 1 } := by
    simp only [TimerDispatcher.admitApplicants, TimerDispatcher.markAdmitted, ha, List.foldl_nil,
      List.not_mem_nil, if_false, hc]
  simp only [step, hc, le_refl, if_true, poll, hadmit, fire, ht]

/-- The same world with an older log. -/
def TimerWorld.withPast (w : TimerWorld) (past : List Obs) : TimerWorld :=
  { w with log := w.log ++ past }

section

variable (w : TimerWorld)
include w

section

variable (past : List Obs)
include past

theorem TimerWorld.fire_withPast (no : ℕ) (serial : UInt32)
    (now : Timeval) :
    (w.withPast past).fire no serial now = (w.fire no serial now).withPast past := by
  unfold fire
  split <;> simp only [withPast] at *
  · simp [*]
  · simp only [*]
    split
    · rfl
    · split <;> rfl

theorem TimerWorld.poll_withPast (now : Timeval) :
    (w.withPast past).poll now = (w.poll now).withPast past :=
  fire_withPast { w with
    dispatcher := w.dispatcher.admitApplicants now
    polls := w.polls + 1
    log := .began w.polls :: w.log } past _ _ _

theorem TimerWorld.ret_withPast (b : TimerActivation) :
    (w.withPast past).ret b = (w.ret b).withPast past := by
  by_cases h : b.serial ≠ w.dispatcher.serial
  · simp only [ret, if_pos h]
    exact if_pos h
  · simp only [ret, if_neg h, ← fire_withPast]
    exact if_neg h

/-- No function reads the log. -/
theorem TimerWorld.step_withPast (a : TimerAct) :
    (w.withPast past).step a = (w.step a).map fun w' => w'.withPast past := by
  cases a <;> simp only [step, map_map]
  case tick | post | throw =>
    split <;> simp_all [withPast]
  case cancel | delay | reset =>
    simp only [withPast]
    split <;> simp [*]
  case poll now =>
    by_cases h : w.dispatcher.clock ≤ now
    · rw [if_pos h, map_some, ← poll_withPast]
      exact if_pos h
    · rw [if_neg h]
      exact if_neg h
  case ret no => exact congrFun (congrArg Option.map (funext (w.ret_withPast past))) _

theorem TimerWorld.run_withPast (as : List TimerAct) :
    run step (w.withPast past) as = (run step w as).map fun w' => w'.withPast past := by
  induction as generalizing w with
  | nil => rfl
  | cons a as ih =>
    rw [run_cons, run_cons, step_withPast]
    cases w.step a with
    | none => rfl
    | some u => exact ih u

end

end

/-- The world after `n` such polls, with nothing in the log. -/
def TimerWorld.idled (w : TimerWorld) (n : ℕ) : TimerWorld :=
  { w with
    dispatcher.serial := w.dispatcher.serial + UInt32.ofNat n
    polls := w.polls + n
    log := [] }

/-- `n` such polls leave the dispatcher as it was, except for `serial`. -/
theorem TimerWorld.run_polls_idle {w : TimerWorld} {now : Timeval} (ht : w.dispatcher.timers = [])
    (ha : w.dispatcher.applicants = []) (hc : w.dispatcher.clock = now) (n : ℕ) :
    ∃ past, run step w (List.replicate n (.poll now)) = some ((w.idled n).withPast past) := by
  induction n generalizing w with
  | zero => exact ⟨w.log, by simp [idled, withPast]⟩
  | succ n ih =>
    rw [List.replicate_succ, run_cons, step_poll_idle ht ha hc, bind_some]
    obtain ⟨past, h⟩ := ih (w := { w with
      dispatcher.serial := w.dispatcher.serial + 1
      polls := w.polls + 1
      log := .began w.polls :: w.log }) ht ha hc
    refine ⟨past, h.trans ?_⟩
    have hserial : w.dispatcher.serial + 1 + UInt32.ofNat n =
        w.dispatcher.serial + UInt32.ofNat (n + 1) := by
      rw [UInt32.ofNat_add, UInt32.add_assoc, UInt32.add_comm 1]
      rfl
    simp only [idled, hserial, Nat.add_assoc, Nat.add_comm 1]

/-- A timer expires and its callback blocks. -/
def blockedCallback : List TimerAct := [.post 0 ⟨0, 0⟩, .poll ⟨11, 0⟩]

/-- After `serial` has gone once around but for one: two timers are posted, moved to the
past, and the next poll fires one of them; then the first callback returns. -/
def wrapAround : List TimerAct :=
  [.post 1 ⟨0, 0⟩, .post 2 ⟨0, 0⟩, .delay 1 2 true ⟨5, 0⟩, .delay 2 3 true ⟨6, 0⟩,
    .poll ⟨11, 0⟩, .ret 0]

/-- The activation that blocked at the start fires the second timer. -/
theorem blockedCallback_wrapAround :
    ((run step (initial ⟨10, 0⟩) blockedCallback).bind fun w =>
      run step (w.idled (2 ^ 32 - 1)) wrapAround).map (fun w => (w.posts, w.log)) =
    some (3, [.fired 0 2 ⟨6, 0⟩ 2 ⟨11, 0⟩, .fired (2 ^ 32) 3 ⟨5, 0⟩ 3 ⟨11, 0⟩, .began (2 ^ 32),
      .retimed 3, .retimed 2, .posted 3, .posted 2]) := by
  decide +kernel

/-- **A resumed activation fires a timer that was posted while it was blocked.** -/
theorem resumed_poll_fires_posted_timer :
    ∃ w, run TimerWorld.step (TimerWorld.initial ⟨10, 0⟩)
        (blockedCallback ++ (List.replicate (2 ^ 32 - 1) (.poll ⟨11, 0⟩) ++ wrapAround)) = some w ∧
      w.posts < 2 ^ 32 ∧
      ∃ no uid time generation now l,
        .fired no uid time generation now :: l <:+ w.log ∧
          .posted uid ∈ l.takeWhile (· ≠ .began no) := by
  obtain ⟨w, hw, ht, ha, hc⟩ : ∃ w,
      run step (initial ⟨10, 0⟩) blockedCallback = some w ∧
        w.dispatcher.timers = [] ∧ w.dispatcher.applicants = [] ∧ w.dispatcher.clock = ⟨11, 0⟩ :=
    ⟨_, rfl, rfl, rfl, rfl⟩
  obtain ⟨past, hidle⟩ := run_polls_idle ht ha hc (2 ^ 32 - 1)
  have hend := blockedCallback_wrapAround
  rw [hw, bind_some, map_eq_some_iff] at hend
  obtain ⟨w', hw', he⟩ := hend
  obtain ⟨hposts, hlog⟩ := Prod.mk.inj he
  refine ⟨w'.withPast past, ?_, ?_, 0, 2, ⟨6, 0⟩, 2, ⟨11, 0⟩, _,
    by rw [withPast, hlog]; exact List.suffix_rfl, by simp⟩
  · rw [run_append, hw, bind_some, run_append, hidle, bind_some]
    rw [run_withPast, hw', map_some]
  · show w'.posts < 2 ^ 32
    rw [hposts]
    decide

end NoxClassic.Dispatch
