/-
# The thread pool: shutdown

`shutdown` and the destructor clear `running` and then wait until every worker has left
its loop.  The flag is not protected by the mutex, and the workers hand their results
back at the top of the loop only.  So it matters where a worker is at that moment:

| the worker is | then |
|---|---|
| in `available.wait` | the broadcast wakes it up, it takes tasks, executes none and leaves |
| between its test of `running` and `available.wait` | it waits, maybe after the broadcast |
| executing a task, or has results | it leaves without handing its results back |

In the second case nobody signals the worker after the broadcast, and `wait_threads`
does not return.  In the third case a task was executed and is never completed.  In all
other cases (`Quiet`) the shutdown ends and completes what was executed.  The destructor
stops the FSM `fetch`, so what is still in `to_dispatch` then is not completed either.

As long as the thread in `wait_threads` waits, only workers and this thread can take a
step, and each of these steps brings the end nearer (`State.toReturn`).
-/

import NoxClassic.Threads.Pool.Live

namespace NoxClassic.Threads.Pool

open Function Option Lib State Finset Thread Execution

/-! ### Workers that leave -/

/-- No worker is between its test of `running` and `available.wait`, executes a task, or has the
result of one. -/
def Quiet (s : State) : Prop :=
  ∀ i < s.nThreads, (s.thread i).pc ≠ .lock ∧ (s.thread i).pc.Idle ∧ (s.thread i).results = []

def Thread.isDead (th : Thread) : ℕ := if th.pc = .dead then 1 else 0

/-- How many steps the thread takes until it is dead. -/
def Thread.toDeath (th : Thread) : ℕ :=
  match th.pc with
  | .wait _ => 4
  | .exec => 3
  | .test => 2
  | .left => 1
  | .lock | .busy _ | .dead => 0

/-- The number of workers that `wait_threads` has waited for. -/
def Waiter.waited : Waiter → ℕ
  | .down i => i
  | .idle | .broadcast | .returned => 0

/-- What holds after `running` was cleared in a quiet state: the dead workers are counted by the
semaphore or by the thread that waits, and after the broadcast no worker waits. -/
structure Down (s : State) : Prop where
  inv : Inv s
  running : s.running = false
  quiet : Quiet s
  counted : s.waiter ≠ .returned → s.deadWorkers + s.waiter.waited = s.sum Thread.isDead
  woken : s.waiter ≠ .broadcast → ∀ i < s.nThreads, (s.thread i).pc ≠ .wait false

/-- What a step of a worker is then. -/
structure Leaving (i : ℕ) (s s' : State) : Prop where
  quiet : (s'.thread i).pc ≠ .lock ∧ (s'.thread i).pc.Idle ∧ (s'.thread i).results = []
  woken : (s'.thread i).pc ≠ .wait false
  nearer : (s'.thread i).toDeath < (s.thread i).toDeath
  counted : s'.deadWorkers + (s.thread i).isDead = s.deadWorkers + (s'.thread i).isDead
  toDispatch : s'.toDispatch = s.toDispatch

section Down

variable {s s' : State} {batch i k t : ℕ} {a : Act}

theorem leaving_of_thread {th : Thread} (hth : s'.thread i = th)
    (hd : s'.toDispatch = s.toDispatch) (hres : th.results = [])
    (hpc : th.pc ≠ .lock ∧ th.pc.Idle ∧ th.pc ≠ .wait false)
    (hnear : th.toDeath < (s.thread i).toDeath)
    (hcount : s'.deadWorkers + (s.thread i).isDead = s.deadWorkers + th.isDead) :
    Leaving i s s' := by
  subst hth
  exact ⟨⟨hpc.1, hpc.2.1, hres⟩, hpc.2.2, hnear, hcount, hd⟩

/-- **One step of a worker after `running` was cleared.** -/
theorem Down.worker (h : Down s) (hi : i < s.nThreads) (hs : s.worker batch i k = some s') :
    Leaving i s s' := by
  obtain ⟨hlock, hidle, hres⟩ := h.quiet i hi
  cases workerStep hs with
  | enter _ hrun | start _ _ hrun => cases h.running.symm.trans hrun
  | leave hpc | next hpc | die hpc =>
    refine leaving_of_thread (update_self ..) rfl hres ⟨by simp, by simp [Pc.Idle], by simp⟩ ?_ ?_
    · simp only [toDeath, hpc]
      omega
    · simp [isDead, hpc, setPc, setThread]
  | wait hpc | take hpc => exact absurd hpc hlock
  | wake hpc htake =>
    obtain ⟨he, -, -⟩ := (h.inv.attended.threads i).waits true hpc
    obtain ⟨⟨taken, w, -, hth, -⟩, hd, hdead⟩ := takeTasks_taken (by simp [hpc]) he htake
    refine leaving_of_thread hth hd hres ⟨by simp, by simp [Pc.Idle], by simp⟩ ?_ ?_
    · simp only [toDeath, hpc]
      omega
    · simp [isDead, hpc, hdead]
  | finish hpc => exact absurd hpc (hidle _)

/-- A thread that was woken up is as dead as before. -/
theorem isDead_of_others {j : ℕ} (h : s'.thread j = s.thread j ∨
    s.Waits j ∧ s'.thread j = { s.thread j with pc := .wait true }) :
    (s'.thread j).isDead = (s.thread j).isDead := by
  rcases h with hsame | ⟨hw, hwoken⟩
  · rw [hsame]
  · rw [hwoken]
    simp [isDead, hw.2]

/-- A thread that is at most woken up. -/
theorem Down.other (h : Down s) {j : ℕ} (hj : j < s.nThreads) (hth : s'.thread j = s.thread j ∨
      s.Waits j ∧ s'.thread j = { s.thread j with pc := .wait true }) :
    ((s'.thread j).pc ≠ .lock ∧ (s'.thread j).pc.Idle ∧ (s'.thread j).results = []) ∧
      (s.waiter ≠ .broadcast → (s'.thread j).pc ≠ .wait false) := by
  rcases hth with hsame | ⟨-, hwoken⟩
  · rw [hsame]
    exact ⟨h.quiet j hj, fun hbro => h.woken hbro j hj⟩
  · rw [hwoken]
    exact ⟨⟨nofun, nofun, (h.quiet j hj).2.2⟩, fun _ => nofun⟩

/-- Something that only wakes threads up. -/
theorem Down.of_others (h : Down s) (hinv : Inv s') (hrun : s'.running = s.running)
    (hw : s'.waiter = s.waiter) (hn : s'.nThreads = s.nThreads)
    (hdead : s'.deadWorkers = s.deadWorkers)
    (hth : ∀ j, s'.thread j = s.thread j ∨
      s.Waits j ∧ s'.thread j = { s.thread j with pc := .wait true }) : Down s' := by
  refine ⟨hinv, hrun.trans h.running, fun j hj => (h.other (hn ▸ hj) (hth j)).1, fun hret => ?_,
    fun hbro j hj => (h.other (hn ▸ hj) (hth j)).2 (hw ▸ hbro)⟩
  rw [hw] at hret ⊢
  rw [hdead, h.counted hret]
  unfold sum tsum
  rw [hn]
  exact sum_congr rfl fun j _ => (isDead_of_others (hth j)).symm

/-- The sum over the threads after a step of worker `i`. -/
theorem sum_of_effect {f : Thread → ℕ} (heff : Effect i s s') (hi : i < s.nThreads)
    (hf : ∀ j, j ≠ i → f (s'.thread j) = f (s.thread j)) :
    s'.sum f + f (s.thread i) = s.sum f + f (s'.thread i) := by
  have hsum : s'.sum f = tsum s.nThreads (update s.thread i (s'.thread i)) f := by
    unfold sum tsum
    rw [heff.nThreads]
    refine sum_congr rfl fun j _ => ?_
    rw [update_apply]
    split_ifs with hj
    · rw [hj]
    · rw [hf j hj]
  rw [hsum]
  exact tsum_update hi _

/-- **Nothing undoes a shutdown.** -/
theorem Down.step (h : Down s) (hs : step batch s a = some s') : Down s' := by
  have hinv := h.inv.step hs
  cases step_cases hs with
  | execute | fetchRead | fetchDrain =>
    exact h.of_others hinv rfl rfl rfl rfl fun _ => .inl rfl
  | @inject k =>
    rw [signal_eq] at hinv ⊢
    exact h.of_others hinv rfl rfl rfl rfl (s.injected.signal_others k)
  | addWorker =>
    have hcases (j : ℕ) (hj : j < s.nThreads + 1) : j < s.nThreads ∧
        s.addWorker.thread j = s.thread j ∨ s.addWorker.thread j = ⟨.test, [], [], none⟩ := by
      rcases Nat.lt_succ_iff_lt_or_eq.1 hj with hlt | rfl
      · exact .inl ⟨hlt, update_of_ne hlt.ne _ _⟩
      · exact .inr (update_self ..)
    refine ⟨hinv, h.running, fun j hj => ?_, fun hret => ?_, fun hbro j hj => ?_⟩
    · rcases hcases j hj with ⟨hlt, hsame⟩ | hnew
      · rw [hsame]
        exact h.quiet j hlt
      · rw [hnew]
        exact ⟨nofun, nofun, rfl⟩
    · have hsum : s.addWorker.sum isDead = s.sum isDead := tsum_succ _
      rw [hsum]
      exact h.counted hret
    · rcases hcases j hj with ⟨hlt, hsame⟩ | hnew
      · rw [hsame]
        exact h.woken hbro j hlt
      · rw [hnew]
        exact nofun
  | @worker i k _ hi hs =>
    have heff := effect_worker (h.inv.attended.threads i) hs
    have hown := h.worker hi hs
    obtain ⟨hrun, hw, -⟩ := heff.frame
    refine ⟨hinv, hrun.trans h.running, fun j hj => ?_, fun hret => ?_, fun hbro j hj => ?_⟩
    · by_cases hji : j = i
      · exact hji ▸ hown.quiet
      · exact (h.other (heff.nThreads ▸ hj) (heff.others j hji)).1
    · have hsum := sum_of_effect heff hi fun j hj => isDead_of_others (heff.others j hj)
      have hcount := h.counted (hw ▸ hret)
      have hdead := hown.counted
      rw [hw]
      omega
    · by_cases hji : j = i
      · exact hji ▸ hown.woken
      · exact (h.other (heff.nThreads ▸ hj) (heff.others j hji)).2 (hw ▸ hbro)
  | @spurious i hw =>
    have hsig : s.signal i = s.setPc i (.wait true) := if_pos hw
    exact h.of_others hinv rfl rfl rfl rfl (hsig ▸ s.signal_others i)
  | shutdown _ hrun | destroy _ hrun => nomatch h.running.symm.trans hrun
  | broadcast hw =>
    have hth (j : ℕ) := (broadcast_thread s j).imp And.right id
    have hb : Down s.broadcast :=
      h.of_others ⟨h.inv.counts.broadcast, { hinv.attended with }⟩ rfl rfl rfl rfl hth
    refine ⟨hinv, h.running, hb.quiet, fun _ => ?_, fun _ j hj hpc => ?_⟩
    · have hw' : s.broadcast.waiter = .broadcast := hw
      have hcount := hb.counted (hw' ▸ nofun)
      rwa [hw'] at hcount
    · exact not_waits_broadcast (s := s) ⟨hj, hpc⟩
  | down hw =>
    refine ⟨hinv, h.running, h.quiet, fun _ => ?_, fun _ => h.woken (hw ▸ nofun)⟩
    have := h.counted (hw ▸ nofun)
    rw [hw] at this
    show s.deadWorkers - 1 + (_ + 1) = s.sum isDead
    simp only [Waiter.waited] at this
    omega
  | returned hw =>
    exact ⟨hinv, h.running, h.quiet, absurd rfl, fun _ => h.woken (hw ▸ nofun)⟩

theorem step_stop (ha : a = .shutdown ∨ a = .destroy) (hs : Pool.step batch s a = some s') :
    s.running = true ∧ s'.running = false := by
  rcases ha with rfl | rfl
  · cases step_cases hs with
    | shutdown _ hrun => exact ⟨hrun, rfl⟩
  · cases step_cases hs with
    | destroy _ hrun => exact ⟨hrun, rfl⟩

/-- What the steps after a shutdown leave as it is. -/
theorem Down.frame (h : Down s) (hs : Pool.step batch s a = some s') :
    s'.destroyed = s.destroyed ∧ (a ≠ .waiter → s'.waiter = s.waiter) ∧
      (s.waiter = .returned → s'.waiter = .returned) ∧
      (s.toDispatch = [] → s'.toDispatch = []) := by
  cases step_cases hs with
  | execute | fetchRead | addWorker | spurious =>
    exact ⟨rfl, fun _ => rfl, id, id⟩
  | fetchDrain => exact ⟨rfl, fun _ => rfl, id, fun _ => rfl⟩
  | inject =>
    rw [signal_eq]
    exact ⟨rfl, fun _ => rfl, id, id⟩
  | @worker i _ _ hi hs =>
    obtain ⟨-, hw, hd⟩ := (effect_worker (h.inv.attended.threads i) hs).frame
    exact ⟨hd, fun _ => hw, hw.trans, (h.worker hi hs).toDispatch.trans⟩
  | shutdown _ hrun | destroy _ hrun => nomatch h.running.symm.trans hrun
  | broadcast hw | down hw | returned hw =>
    refine ⟨rfl, absurd rfl, fun hret => ?_, id⟩
    nomatch hret.symm.trans hw

/-- What was executed before is completed, or handed back. -/
theorem Down.mem_of_executed (h : Down s) (ht : t ∈ s.executed) :
    t ∈ s.toDispatch ∨ t ∈ s.completed := by
  have hran := h.inv.counts.ran t
  have hzero : s.sum (ran t) = 0 := by
    unfold sum tsum
    refine sum_eq_zero fun i hi => ?_
    obtain ⟨-, hidle, hres⟩ := h.quiet i (mem_range.1 hi)
    unfold ran
    rw [if_neg (hidle t), hres, List.count_nil, Nat.add_zero]
  unfold past at hran
  have hpos := List.count_pos_iff.2 ht
  rw [hran, hzero, Nat.zero_add] at hpos
  rcases Nat.add_pos_iff_pos_or_pos.1 hpos with hpos | hpos
  · exact .inl (List.count_pos_iff.1 hpos)
  · exact .inr (List.count_pos_iff.1 hpos)

/-! ### The end of `wait_threads` -/

/-- The number of steps that are left until `wait_threads` returns. -/
def State.toReturn (s : State) : ℕ := s.nThreads - s.waiter.waited + s.sum Thread.toDeath

/-- `wait_threads` has returned, and all workers have left. -/
def Stopped (s : State) : Prop :=
  s.waiter = .returned ∧ ∀ i < s.nThreads, (s.thread i).pc = .dead

theorem Thread.isDead_le (th : Thread) : th.isDead ≤ 1 := by
  unfold isDead
  split_ifs <;> omega

/-- If there are as many dead workers as workers, all are dead. -/
theorem dead_of_sum (h : s.nThreads ≤ s.sum isDead) (hi : i < s.nThreads) :
    (s.thread i).pc = .dead := by
  by_contra hpc
  have hlt : s.sum isDead < s.nThreads := tsum_lt hi isDead_le (if_neg hpc)
  omega

/-- **As long as `wait_threads` waits, every step brings its end nearer.** -/
theorem Down.step_toReturn (h : Down s) (hdown : s.waiter.isDown = true)
    (hs : Pool.step batch s a = some s') :
    Stopped s' ∨ s'.waiter.isDown = true ∧ s'.toReturn < s.toReturn := by
  have hblocked : s.GroupBlocked := .inr hdown
  have hwoken : ∀ i < s.nThreads, (s.thread i).pc ≠ .wait false := by
    refine h.woken fun hw => ?_
    rw [hw] at hdown
    nomatch hdown
  cases step_cases hs with
  | execute hfree | inject hfree | fetchRead hfree | fetchDrain hfree | addWorker hfree
  | shutdown hfree | destroy hfree => exact absurd hblocked hfree
  | @worker i k _ hi hs =>
    have heff := effect_worker (h.inv.attended.threads i) hs
    have hsum : s'.sum toDeath + (s.thread i).toDeath =
        s.sum toDeath + (s'.thread i).toDeath := by
      refine sum_of_effect heff hi fun j hj => ?_
      rw [heff.same hj fun hw => hwoken j hw.1 hw.2]
    have hnear := (h.worker hi hs).nearer
    obtain ⟨-, hw, -⟩ := heff.frame
    refine .inr ⟨hw ▸ hdown, ?_⟩
    unfold toReturn
    rw [hw, heff.nThreads]
    omega
  | spurious hw => exact absurd hw.2 (hwoken _ hw.1)
  | broadcast hw =>
    rw [hw] at hdown
    nomatch hdown
  | @down i hw hi hd =>
    refine .inr ⟨rfl, ?_⟩
    have hlt : s.nThreads - (i + 1) + s.sum toDeath < s.nThreads - i + s.sum toDeath := by omega
    unfold toReturn
    rw [hw]
    exact hlt
  | @returned i hw hi =>
    have hcount := h.counted (hw ▸ nofun)
    rw [hw] at hcount
    have hle : s.nThreads ≤ s.sum isDead := by
      rw [← hcount]
      exact hi.trans (Nat.le_add_left _ _)
    exact .inl ⟨rfl, fun j hj => dead_of_sum hle hj⟩

/-- As long as `wait_threads` waits, a worker can go on, or it can go on itself. -/
theorem Down.enabled (h : Down s) (batch : ℕ) (hdown : s.waiter.isDown = true) :
    (Pool.step batch s .waiter).isSome ∨
      ∃ i, ∃ a, (∃ k, a = Act.worker i k) ∧ (Pool.step batch s a).isSome := by
  cases hw : s.waiter with
  | idle | broadcast | returned =>
    rw [hw] at hdown
    nomatch hdown
  | down i =>
    show s.waitThreads.isSome = true ∨ _
    unfold waitThreads
    rw [hw]
    dsimp only
    by_cases hi : i < s.nThreads
    · rw [if_pos hi]
      by_cases hd : 0 < s.deadWorkers
      · rw [if_pos hd]
        exact .inl rfl
      -- the semaphore is zero, so fewer workers are dead than there are
      have hcount := h.counted (hw ▸ nofun)
      rw [hw] at hcount
      simp only [Waiter.waited] at hcount
      obtain ⟨j, hj, hdead⟩ : ∃ j < s.nThreads, (s.thread j).pc ≠ .dead := by
        by_contra hall
        push Not at hall
        have hsum : s.sum isDead = ∑ _j ∈ range s.nThreads, 1 :=
          sum_congr rfl fun j hj => if_pos (hall j (mem_range.1 hj))
        have hone : ∑ _j ∈ range s.nThreads, 1 = s.nThreads := by simp
        omega
      exact .inr ⟨j, worker_enabled hj (h.woken (hw ▸ nofun) j hj) hdead⟩
    · rw [if_neg hi]
      exact .inl rfl

end Down

/-! ### Executions -/

/-- The workers, the thread in `wait_threads` and the FSM `fetch` go on while they can. -/
structure FairlyStopped {batch : ℕ} (e : Execution (step batch)) : Prop where
  worker : ∀ i, e.Fair fun a => ∃ k, a = .worker i k
  waiter : e.Fair fun a => a = .waiter
  fetch : e.Fair fun a => a = .fetchRead ∨ a = .fetchDrain

section Executions

variable {batch t : ℕ} {e : Execution (step batch)}

theorem leadsTo_isDown (hfair : FairlyStopped e) :
    e.LeadsTo (fun s => Down s ∧ s.waiter = .broadcast)
      fun s => Down s ∧ s.waiter.isDown = true := by
  refine leadsTo_of_fair hfair.waiter (fun n hn => ⟨.waiter, rfl, ?_⟩) fun n a hn _ hs => ?_
  · show (e.state n).waitThreads.isSome = true
    unfold waitThreads
    rw [hn.2]
    rfl
  · obtain ⟨hdown, hw⟩ := hn
    by_cases ha : a = .waiter
    · subst ha
      have hdown' := hdown.step hs
      refine .inl ⟨hdown', ?_⟩
      replace hs : (e.state n).waitThreads = some (e.state (n + 1)) := hs
      unfold waitThreads at hs
      rw [hw] at hs
      rw [← some.inj hs]
      rfl
    · exact .inr ⟨ha, hdown.step hs, ((hdown.frame hs).2.1 ha).trans hw⟩

/-- `wait_threads` waits, and has this many steps to go. -/
def Waiting (r : ℕ) (s : State) : Prop := (Down s ∧ s.waiter.isDown = true) ∧ s.toReturn = r

/-- Fewer than this many steps are left. -/
def Nearer (r : ℕ) (s : State) : Prop :=
  Stopped s ∨ (Down s ∧ s.waiter.isDown = true) ∧ s.toReturn < r

theorem Waiting.step {r : ℕ} {s s' : State} {a : Act} (h : Waiting r s)
    (hs : step batch s a = some s') : Nearer r s' := by
  obtain ⟨⟨hdown, hw⟩, rfl⟩ := h
  rcases hdown.step_toReturn hw hs with hstop | ⟨hw', hlt⟩
  · exact .inl hstop
  · exact .inr ⟨⟨hdown.step hs, hw'⟩, hlt⟩

theorem leadsTo_stopped (hfair : FairlyStopped e) :
    e.LeadsTo (fun s => Down s ∧ s.waiter.isDown = true) Stopped := by
  refine Execution.LeadsTo.rank toReturn fun r n hn => ?_
  -- the thread that can go on now can do so until some step is taken
  have hto {K : Act → Prop} (hK : e.Fair K) :
      e.LeadsTo (fun s => Waiting r s ∧ ∃ a, K a ∧ (step batch s a).isSome) (Nearer r) :=
    leadsTo_of_fair hK (fun m hm => hm.2) fun m a hm _ hs => .inl (hm.1.step hs)
  rcases hn.1.1.enabled batch hn.1.2 with hen | ⟨i, hen⟩
  · exact hto hfair.waiter n ⟨hn, .waiter, rfl, hen⟩
  · exact hto (hfair.worker i) n ⟨hn, hen⟩

/-- Before a shutdown the pool runs. -/
theorem up_or_stopped (h0 : e.state 0 = init) (n : ℕ) :
    Up (e.state n) ∨ Inv (e.state n) ∧ (e.state n).running = false := by
  refine invariant_from (n := 0)
    (I := fun s => Up s ∨ Inv s ∧ s.running = false) (.inl (h0 ▸ up_init)) ?_ n n.zero_le
  rintro m a - - (hup | ⟨hinv, hrun⟩) hs
  · by_cases hstop : a = .shutdown ∨ a = .destroy
    · exact .inr ⟨hup.inv.step hs, (step_stop hstop hs).2⟩
    · exact .inl (hup.step (fun h => hstop (.inl h)) (fun h => hstop (.inr h)) hs)
  · exact .inr ⟨hinv.step hs, (frame_step hinv hs).running hrun⟩

/-- `running` is cleared in a quiet state. -/
theorem down_of_up {s s' : State} {a : Act} (h : Up s) (hquiet : Quiet s)
    (ha : a = .shutdown ∨ a = .destroy) (hs : step batch s a = some s') :
    Down s' ∧ s'.waiter = .broadcast ∧ s'.destroyed = decide (a = .destroy) ∧
      s'.toDispatch = s.toDispatch := by
  have hinv := h.inv.step hs
  have hdes : s.destroyed = false := Bool.eq_false_iff.2 fun hd => h.free (.inl hd)
  have hdead : s.deadWorkers + 0 = s.sum isDead := by
    rw [h.deadWorkers]
    unfold sum tsum
    exact (sum_eq_zero fun i _ => if_neg (h.alive i).2).symm
  rcases ha with rfl | rfl <;> cases step_cases hs
  · exact ⟨⟨hinv, rfl, hquiet, fun _ => hdead, absurd rfl⟩, rfl, hdes, rfl⟩
  · exact ⟨⟨hinv, rfl, hquiet, fun _ => hdead, absurd rfl⟩, rfl, rfl, rfl⟩

/-- **A shutdown in a quiet state ends cleanly.**  In every fair execution in which `shutdown` is
called, or the destructor while no result is left in `to_dispatch`, and no worker is then between
its test of `running` and `available.wait`, executes a task or has the result of one,
`wait_threads` returns after all workers have left, and every task that was executed is
completed. -/
theorem shutdown_completes (h₀ : e.state 0 = State.init) (hfair : FairlyStopped e) {n₀ : ℕ}
    {a : Act} (ha : e.act n₀ = some a) (hstop : a = .shutdown ∨ a = .destroy)
    (hquiet : Quiet (e.state n₀)) (hleft : a = .destroy → (e.state n₀).toDispatch = []) :
    (∃ m, n₀ ≤ m ∧ Stopped (e.state m)) ∧
      ∀ n t, t ∈ (e.state n).executed → ∃ m, t ∈ (e.state m).completed := by
  have hs := e.next n₀
  rw [ha] at hs
  have hup : Up (e.state n₀) := (up_or_stopped h₀ n₀).resolve_right fun h =>
    Bool.false_ne_true (h.2.symm.trans (step_stop hstop hs).1)
  obtain ⟨hdown1, hbro, hdes1, hdis1⟩ := down_of_up hup hquiet hstop hs
  have hinv (n : ℕ) : Inv (e.state n) := (up_or_stopped h₀ n).elim Up.inv And.left
  have hdown (n : ℕ) (hn : n₀ + 1 ≤ n) : Down (e.state n) :=
    invariant_from hdown1 (fun _ _ _ _ h hs => h.step hs) n hn
  obtain ⟨m, hm, hwait⟩ := leadsTo_isDown hfair _ ⟨hdown1, hbro⟩
  obtain ⟨m', hm', hstopped⟩ := leadsTo_stopped hfair m hwait
  refine ⟨⟨m', by omega, hstopped⟩, fun n t ht => ?_⟩
  -- the task is looked for when `wait_threads` has returned
  obtain ⟨k, hk, hk'⟩ : ∃ k, n ≤ k ∧ m' ≤ k := ⟨max n m', le_max_left _ _, le_max_right _ _⟩
  have hexec : t ∈ (e.state k).executed :=
    invariant_from (I := fun s => t ∈ s.executed) ht
      (fun l _ _ _ ht hs => (frame_step (hinv l) hs).executed t ht) k hk
  have hreturned : (e.state k).waiter = .returned :=
    invariant_from (I := fun s => s.waiter = .returned) hstopped.1
      (fun l _ hl _ hw hs => ((hdown l (by omega)).frame hs).2.2.1 hw) k hk'
  have hdes : (e.state k).destroyed = decide (a = .destroy) :=
    invariant_from (n := n₀ + 1) (I := fun s => s.destroyed = decide (a = .destroy)) hdes1
      (fun l _ hl _ hd hs => ((hdown l hl).frame hs).1.trans hd) k (by omega)
  rcases (hdown k (by omega)).mem_of_executed hexec with hmem | hmem
  · rcases hstop with rfl | rfl
    · have hto : e.LeadsTo (fun s => (Down s ∧ s.waiter = .returned ∧ s.destroyed = false) ∧
          t ∈ s.toDispatch) fun s => t ∈ s.completed := by
        refine leadsTo_completed (fun s h => ⟨h.1.inv, ?_⟩) (fun l a _ h hs => ?_) hfair.fetch
        · rintro (hd | hw)
          · nomatch h.2.2.symm.trans hd
          · rw [h.2.1] at hw
            nomatch hw
        · have hf := h.1.frame hs
          exact ⟨h.1.step hs, hf.2.2.1 h.2.1, hf.1.trans h.2.2⟩
      obtain ⟨l, -, hl⟩ := hto k ⟨⟨hdown k (by omega), hreturned, hdes⟩, hmem⟩
      exact ⟨l, hl⟩
    · have hnil : (e.state k).toDispatch = [] :=
        invariant_from (n := n₀ + 1) (I := fun s => s.toDispatch = [])
          (hdis1.trans (hleft rfl)) (fun l _ hl _ hd hs => ((hdown l hl).frame hs).2.2.2 hd) k
          (by omega)
      rw [hnil] at hmem
      nomatch hmem
  · exact ⟨k, hmem⟩

/-- A run in which the pool is shut down while its worker waits. -/
def stopRun : List Act :=
  [.addWorker, .execute, .inject 0, .worker 0 0, .worker 0 0, .worker 0 0, .worker 0 0, .worker 0 0,
    .worker 0 0, .worker 0 0, .shutdown, .waiter, .worker 0 0, .worker 0 0, .worker 0 0,
    .worker 0 0, .waiter, .waiter, .fetchRead, .fetchDrain]

theorem isSome_stopRun : (run (step 1) init stopRun).isSome := by decide

/-- The state after it. -/
def stopEnd : State := (run (step 1) State.init stopRun).get isSome_stopRun

theorem run_stopRun : run (step 1) init stopRun = some stopEnd := (some_get _).symm

/-- The execution that takes this run, and rests. -/
def stopSample : Execution (step 1) := .ofList (step 1) State.init stopRun isSome_stopRun

theorem fairlyStopped_sample : FairlyStopped stopSample := by
  obtain ⟨hn, hpc, hw, hfetch, hbytes⟩ : stopEnd.nThreads = 1 ∧ (stopEnd.thread 0).pc = .dead ∧
      stopEnd.waiter = .returned ∧ stopEnd.fetch = .blocked ∧ stopEnd.bytes = 0 := by decide
  refine ⟨fun i => fair_ofList run_stopRun ?_, fair_ofList run_stopRun ?_,
    fair_ofList run_stopRun ?_⟩
  · rintro _ ⟨k, rfl⟩
    simp only [step]
    split_ifs with hi
    · obtain rfl : i = 0 := by omega
      unfold worker
      rw [hpc]
    · rfl
  · rintro _ rfl
    show stopEnd.waitThreads = none
    unfold waitThreads
    rw [hw]
  · rintro _ (rfl | rfl)
    · simp [step, hfetch, hbytes]
    · simp [step, hfetch]

/-- The hypotheses of `shutdown_completes` are satisfiable: the pool is shut down while its worker
waits and a result is in `to_dispatch`. -/
theorem shutdown_completes_sample : FairlyStopped stopSample ∧
    stopSample.act 10 = some .shutdown ∧ (stopSample.state 10).toDispatch = [0] ∧
    (∃ m, 10 ≤ m ∧ Stopped (stopSample.state m)) ∧ ∃ m, 0 ∈ (stopSample.state m).completed := by
  have hquiet : Quiet (stopSample.state 10) := by
    intro i hi
    have hn : (stopSample.state 10).nThreads = 1 := by decide
    obtain rfl : i = 0 := by omega
    have hth : (stopSample.state 10).thread 0 = ⟨.wait false, [], [], none⟩ := by decide
    exact ⟨nofun, nofun, rfl⟩
  have hact : stopSample.act 10 = some .shutdown := rfl
  obtain ⟨hstop, hdone⟩ := shutdown_completes rfl fairlyStopped_sample hact (.inl rfl) hquiet nofun
  exact ⟨fairlyStopped_sample, hact, by decide, hstop, hdone 10 0 (by decide)⟩

end Executions

/-! ### Where a shutdown fails -/

section Fails

variable {s s' : State} {batch t : ℕ} {a : Act}

/-- The worker has tested `running` when the flag is cleared, and locks the mutex after the
broadcast. -/
def hangRun : List Act := [.addWorker, .worker 0 0, .shutdown, .waiter, .worker 0 0]

/-- The worker executes a task when the flag is cleared. -/
def lossRun : List Act :=
  [.addWorker, .execute, .inject 0, .worker 0 0, .worker 0 0, .worker 0 0, .shutdown, .waiter,
    .worker 0 0, .worker 0 0, .worker 0 0, .worker 0 0, .waiter, .waiter]

/-- The destructor runs when a result is in `to_dispatch`. -/
def destroyRun : List Act :=
  [.addWorker, .execute, .inject 0, .worker 0 0, .worker 0 0, .worker 0 0, .worker 0 0, .worker 0 0,
    .worker 0 0, .worker 0 0, .destroy, .waiter, .worker 0 0, .worker 0 0, .worker 0 0, .worker 0 0,
    .waiter, .waiter]

theorem isSome_lossRun : (run (step 1) init lossRun).isSome := by decide

/-- If the only worker waits and `wait_threads` waits for it, only a spurious wake-up helps. -/
theorem step_eq_none_of_hang (hw : s.waiter = .down 0) (hn : s.nThreads = 1)
    (hd : s.deadWorkers = 0) (hpc : (s.thread 0).pc = .wait false) (ha : ∀ i, a ≠ .spurious i) :
    step batch s a = none := by
  have hblocked : s.GroupBlocked := .inr (by rw [hw]; rfl)
  rw [eq_none_iff_forall_ne_some]
  intro s' hs
  cases step_cases hs with
  | execute hfree | inject hfree | fetchRead hfree | fetchDrain hfree | addWorker hfree
  | shutdown hfree | destroy hfree => exact hfree hblocked
  | @worker i k _ hi hs =>
    obtain rfl : i = 0 := by omega
    unfold worker at hs
    rw [hpc] at hs
    nomatch hs
  | spurious => exact ha _ rfl
  | broadcast hw' => nomatch hw.symm.trans hw'
  | down _ _ hpos => omega
  | returned hw' hle =>
    obtain rfl := Waiter.down.inj (hw.symm.trans hw')
    omega

/-- A dead worker has executed the task. -/
structure Lost (t : ℕ) (s : State) : Prop where
  inv : Inv s
  pos : 0 < s.nThreads
  dead : (s.thread 0).pc = .dead
  result : t ∈ (s.thread 0).results

theorem Lost.step (h : Lost t s) (hs : step batch s a = some s') : Lost t s' := by
  have ha : ¬ ∃ k, a = .worker 0 k := by
    rintro ⟨k, rfl⟩
    cases step_cases hs with
    | worker _ hs =>
      unfold worker at hs
      rw [h.dead] at hs
      nomatch hs
  obtain ⟨hsame, hpos⟩ := step_thread h.inv h.pos (h.dead ▸ nofun) ha hs
  exact ⟨h.inv.step hs, hpos, hsame ▸ h.dead, hsame ▸ h.result⟩

theorem Lost.not_completed (h : Lost t s) : t ∉ s.completed := by
  intro ht
  have hran : 0 < s.sum (ran t) := by
    refine sum_pos' (fun _ _ => Nat.zero_le _) ⟨0, mem_range.2 h.pos, ?_⟩
    exact Nat.add_pos_right _ (List.count_pos_iff.2 h.result)
  have hplaces := h.inv.counts.tasks t
  have hcompleted := List.count_pos_iff.2 ht
  unfold places past at hplaces
  split_ifs at hplaces <;> omega

/-- After the destructor nothing is completed. -/
theorem step_destroyed (h : Inv s) (hd : s.destroyed = true) (hs : step batch s a = some s') :
    s'.destroyed = true ∧ s'.completed = s.completed := by
  refine ⟨(frame_step h hs).destroyed hd, (frame_step h hs).completed.1 ?_⟩
  rintro rfl
  cases step_cases hs with
  | fetchDrain hfree => exact hfree (.inl hd)

/-- **A shutdown can hang, and it can lose results.**  If the worker is between its test of
`running` and `available.wait`, then `wait_threads` waits for a worker that nobody signals.  If the
worker executes a task, or the destructor runs while a result is in `to_dispatch`, then the task is
never completed, whatever is done later. -/
theorem shutdown_hangs_or_loses :
    (∃ s, run (step 1) State.init hangRun = some s ∧ s.waiter = .down 0 ∧
      ∀ a, (∀ i, a ≠ .spurious i) → step 1 s a = none) ∧
    (∃ s, run (step 1) State.init lossRun = some s ∧ s.waiter = .returned ∧ 0 ∈ s.executed ∧
      ∀ as s', run (step 1) s as = some s' → 0 ∉ s'.completed) ∧
    ∃ s, run (step 1) State.init destroyRun = some s ∧ s.waiter = .returned ∧ 0 ∈ s.executed ∧
      ∀ as s', run (step 1) s as = some s' → 0 ∉ s'.completed := by
  have hinv {as : List Act} {s : State} (hrun : run (step 1) init as = some s) : Inv s :=
    run_invariant (fun _ _ _ h hs => h.step hs) inv_init hrun
  refine ⟨?_, ?_, ?_⟩
  · have hrun := (some_get (by decide : (run (step 1) init hangRun).isSome)).symm
    refine ⟨_, hrun, by decide, fun a ha => ?_⟩
    exact step_eq_none_of_hang (by decide) (by decide) (by decide) (by decide) ha
  · have hrun := (some_get isSome_lossRun).symm
    refine ⟨_, hrun, by decide, by decide, fun as s' hs => ?_⟩
    have hlost : Lost 0 ((run (step 1) init lossRun).get isSome_lossRun) :=
      ⟨hinv hrun, by decide, by decide, by decide⟩
    exact (run_invariant (fun _ _ _ h hs => Lost.step h hs) hlost hs).not_completed
  · have hrun := (some_get (by decide : (run (step 1) init destroyRun).isSome)).symm
    refine ⟨_, hrun, by decide, by decide, fun as s' hs => ?_⟩
    have hend := run_invariant (I := fun s => Inv s ∧ s.destroyed = true ∧ s.completed = [])
      (fun _ _ _ h hs => ⟨h.1.step hs, (step_destroyed h.1 h.2.1 hs).1,
        (step_destroyed h.1 h.2.1 hs).2.trans h.2.2⟩)
      ⟨hinv hrun, by decide, by decide⟩ hs
    rw [hend.2.2]
    exact nofun

end Fails

end NoxClassic.Threads.Pool
