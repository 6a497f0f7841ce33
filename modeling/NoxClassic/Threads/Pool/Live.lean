/-
# The thread pool: every task is executed and completed

A task that was submitted is executed and completed in every fair execution of a pool
that is not shut down and has a worker.  Fair means that each worker thread, `inject`
and `fetch` take a step again and again while they can, which includes that the mutex
is given to each thread that wants it, and that the tasks return.

The task is followed through its places:

| from | to | by |
|---|---|---|
| `to_inject` | `to_execute` | `inject` |
| `to_execute` | a worker's deque | a worker that does not wait for a signal |
| a worker's deque | `to_dispatch` | this worker |
| `to_dispatch` | completed | `fetch` |

For the second step the measure is the position of the task in the queue, and within
one position how far a worker that does not wait is from its critical section
(`Thread.distance`).
-/

import NoxClassic.Lib.Fair
import NoxClassic.Threads.Pool.Safety

namespace NoxClassic.Threads.Pool

open Function List Lib State Thread Execution

/-! ### What a worker does to the rest -/

/-- What a step of worker `i` can do to everything but this worker. -/
structure Effect (i : ℕ) (s s' : State) : Prop where
  nThreads : s'.nThreads = s.nThreads
  submitted : s'.submitted = s.submitted
  frame : s'.running = s.running ∧ s'.waiter = s.waiter ∧ s'.destroyed = s.destroyed
  toInject : s'.toInject = s.toInject
  fetch : s'.fetch = s.fetch
  completed : s'.completed = s.completed
  others : ∀ j, j ≠ i → s'.thread j = s.thread j ∨
    s.Waits j ∧ s'.thread j = { s.thread j with pc := .wait true }
  dispatched : ∃ l, s'.toDispatch = s.toDispatch ++ l
  executed : ∃ l, s'.executed = s.executed ++ l

section Effect

variable {s s' s'' : State} {batch i k : ℕ}

theorem Effect.of_update (hn : s'.nThreads = s.nThreads) (hsub : s'.submitted = s.submitted)
    (hframe : s'.running = s.running ∧ s'.waiter = s.waiter ∧ s'.destroyed = s.destroyed)
    (hin : s'.toInject = s.toInject) (hf : s'.fetch = s.fetch) (hc : s'.completed = s.completed)
    {th : Thread} (hth : s'.thread = update s.thread i th)
    (hd : ∃ l, s'.toDispatch = s.toDispatch ++ l) (hx : ∃ l, s'.executed = s.executed ++ l) :
    Effect i s s' :=
  ⟨hn, hsub, hframe, hin, hf, hc, fun j hj => .inl (by rw [hth, update_of_ne hj]), hd, hx⟩

theorem eq_append_nil (l : List ℕ) : ∃ l', l = l ++ l' := ⟨[], (append_nil l).symm⟩

theorem effect_setThread (th : Thread) : Effect i s (s.setThread i th) :=
  .of_update rfl rfl ⟨rfl, rfl, rfl⟩ rfl rfl rfl rfl (eq_append_nil _) (eq_append_nil _)

theorem effect_signal : Effect i s (s.signal k) := by
  rw [signal_eq]
  exact ⟨rfl, rfl, ⟨rfl, rfl, rfl⟩, rfl, rfl, rfl, fun j _ => s.signal_others k j, eq_append_nil _,
    eq_append_nil _⟩

theorem Effect.trans (h : Effect i s s') (h' : Effect i s' s'') : Effect i s s'' := by
  obtain ⟨l, hl⟩ := h.dispatched
  obtain ⟨l', hl'⟩ := h'.dispatched
  obtain ⟨x, hx⟩ := h.executed
  obtain ⟨x', hx'⟩ := h'.executed
  obtain ⟨h1, h2, h3⟩ := h.frame
  obtain ⟨h1', h2', h3'⟩ := h'.frame
  refine ⟨h'.nThreads.trans h.nThreads, h'.submitted.trans h.submitted,
    ⟨h1'.trans h1, h2'.trans h2, h3'.trans h3⟩,
    h'.toInject.trans h.toInject, h'.fetch.trans h.fetch, h'.completed.trans h.completed,
    fun j hj => ?_, ⟨l ++ l', ?_⟩, x ++ x', ?_⟩
  · rcases h.others j hj with hsame | ⟨hw, hwoken⟩
    · rcases h'.others j hj with hsame' | ⟨hw', hwoken'⟩
      · exact .inl (hsame'.trans hsame)
      · rw [hsame] at hwoken'
        exact .inr ⟨⟨h.nThreads ▸ hw'.1, hsame ▸ hw'.2⟩, hwoken'⟩
    · refine .inr ⟨hw, ?_⟩
      rcases h'.others j hj with hsame' | ⟨hw', -⟩
      · exact hsame'.trans hwoken
      · have := hw'.2
        rw [hwoken] at this
        nomatch this
  · rw [hl', hl, append_assoc]
  · rw [hx', hx, append_assoc]

/-- A thread that does not wait for a signal is left alone. -/
theorem Effect.same (h : Effect i s s') {j : ℕ} (hj : j ≠ i) (hw : ¬ s.Waits j) :
    s'.thread j = s.thread j :=
  (h.others j hj).resolve_right fun hcon => hw hcon.1

theorem effect_takeTasks (he : (s.thread i).e = [])
    (hs : s.takeTasks batch i k = some s') : Effect i s s' := by
  obtain ⟨taken, rest, s1, -, -, hs1, rfl⟩ := takeTasks_cases he hs
  have hgrab : Effect i s (s.grab i taken rest) :=
    .of_update rfl rfl ⟨rfl, rfl, rfl⟩ rfl rfl rfl rfl (eq_append_nil _) (eq_append_nil _)
  have hpop : ∀ s0 : State, Effect i s0 (s0.popWorker i) := fun _ =>
    .of_update rfl rfl ⟨rfl, rfl, rfl⟩ rfl rfl rfl rfl (eq_append_nil _) (eq_append_nil _)
  rcases hs1 with rfl | rfl
  · exact hgrab.trans (hpop _)
  · exact (hgrab.trans effect_signal).trans (hpop _)

theorem effect_handBack : Effect i s (s.handBack i) :=
  .of_update rfl rfl ⟨rfl, rfl, rfl⟩ rfl rfl rfl rfl ⟨_, rfl⟩ (eq_append_nil _)

theorem effect_worker (hok : (s.thread i).Ok s.running) (hs : s.worker batch i k = some s') :
    Effect i s s' := by
  cases workerStep hs with
  | enter | leave | next | finish => exact effect_setThread _
  | wait => exact effect_handBack.trans (effect_setThread _)
  | take hpc htake =>
    refine effect_handBack.trans (effect_takeTasks ?_ htake)
    show (update s.thread i _ i).e = []
    rw [update_self]
    exact hok.lock hpc
  | wake hpc htake => exact effect_takeTasks (hok.waits true hpc).1 htake
  | start =>
    exact .of_update rfl rfl ⟨rfl, rfl, rfl⟩ rfl rfl rfl rfl (eq_append_nil _) ⟨_, rfl⟩
  | die =>
    exact .of_update rfl rfl ⟨rfl, rfl, rfl⟩ rfl rfl rfl rfl (eq_append_nil _) (eq_append_nil _)

end Effect

/-! ### What a worker does itself -/

/-- How far the thread is from its next critical section, while the pool runs. -/
def Thread.distance (th : Thread) : ℕ :=
  match th.pc with
  | .lock | .wait _ | .dead => 0
  | .test | .left => 1
  | .exec => 2 * th.e.length + 2
  | .busy _ => 2 * th.e.length + 3

/-- The thread has the task, before or after it executed it. -/
def Thread.Carries (t : ℕ) (th : Thread) : Prop := t ∈ th.e ∨ th.pc = .busy t ∨ t ∈ th.results

/-- The critical section of worker `i`: it takes tasks from the front of the queue, at least one if
there is one, and hands its results on. -/
structure Critical (batch i : ℕ) (s s' : State) : Prop where
  pc : (s.thread i).pc = .lock ∨ (s.thread i).pc = .wait true
  taken : ∃ taken, s.toExecute = taken ++ s'.toExecute ∧ (s'.thread i).e = taken ∧
    (1 ≤ batch → s.toExecute ≠ [] → taken ≠ [])
  handed : ∀ t ∈ (s.thread i).results, t ∈ s'.toDispatch
  alive : (s'.thread i).pc ≠ .left ∧ (s'.thread i).pc ≠ .dead
  deadWorkers : s'.deadWorkers = s.deadWorkers

/-- Worker `i` goes on to its next critical section. -/
structure Onward (i : ℕ) (s s' : State) : Prop where
  toExecute : s'.toExecute = s.toExecute
  nearer : (s'.thread i).distance < (s.thread i).distance
  goesOn : (s'.thread i).pc ≠ .wait false
  alive : (s'.thread i).pc ≠ .left ∧ (s'.thread i).pc ≠ .dead
  carries : ∀ t, (s.thread i).Carries t → (s'.thread i).Carries t
  deadWorkers : s'.deadWorkers = s.deadWorkers

section Progress

variable {s s' : State} {batch i k : ℕ}

theorem Thread.Carries.setPc {t : ℕ} {th : Thread} {pc : Pc} (h : th.Carries t)
    (hidle : th.pc.Idle) : Thread.Carries t { th with pc := pc } :=
  h.imp_right fun h => .inr (h.resolve_left (hidle t))

/-- What a worker takes, which is something if it takes batches and something is there. -/
theorem takeTasks_taken (hpc : (s.thread i).pc ≠ .wait false) (he : (s.thread i).e = [])
    (hs : s.takeTasks batch i k = some s') :
    (∃ taken w, s.toExecute = taken ++ s'.toExecute ∧
      s'.thread i = { s.thread i with pc := .exec, e := taken, w := w } ∧
      (1 ≤ batch → s.toExecute ≠ [] → taken ≠ [])) ∧ s'.toDispatch = s.toDispatch ∧
      s'.deadWorkers = s.deadWorkers := by
  obtain ⟨taken, rest, s1, htaken, hne, hs1, rfl⟩ := takeTasks_cases he hs
  have hgrab : (s.grab i taken rest).thread i = { s.thread i with e := taken } := update_self ..
  have hthread : s1.thread i = { s.thread i with e := taken } ∧ s1.toExecute = rest ∧
      s1.toDispatch = s.toDispatch ∧ s1.deadWorkers = s.deadWorkers := by
    rcases hs1 with rfl | rfl
    · exact ⟨hgrab, rfl, rfl, rfl⟩
    · refine ⟨(signal_thread ?_).trans hgrab, ?_⟩
      · rw [hgrab]
        exact hpc
      · rw [signal_eq]
        exact ⟨rfl, rfl, rfl⟩
  have hpop : (s1.popWorker i).thread i =
      { s1.thread i with pc := .exec, w := s1.freeWorkers.head? } := update_self ..
  rw [hthread.1] at hpop
  exact ⟨⟨taken, _, htaken.trans (congrArg _ hthread.2.1.symm), hpop, hne⟩, hthread.2.2⟩

/-- A thread that changes only in itself, and comes nearer. -/
theorem onward_of_update {th : Thread} (hex : s'.toExecute = s.toExecute)
    (hdead : s'.deadWorkers = s.deadWorkers)
    (hth : s'.thread = update s.thread i th)
    (hnear : th.distance < (s.thread i).distance) (hpc : th.pc ≠ .wait false)
    (halive : th.pc ≠ .left ∧ th.pc ≠ .dead)
    (hcarries : ∀ t, (s.thread i).Carries t → th.Carries t) : Onward i s s' := by
  have hi : s'.thread i = th := by rw [hth, update_self]
  exact ⟨hex, hi ▸ hnear, hi ▸ hpc, hi ▸ halive, hi ▸ hcarries, hdead⟩

/-- **One step of a worker** of a running pool. -/
theorem worker_progress (hok : (s.thread i).Ok s.running)
    (hrun : s.running = true) (halive : (s.thread i).pc ≠ .left)
    (hs : s.worker batch i k = some s') : Critical batch i s s' ∨ Onward i s s' := by
  have hback : (s.handBack i).thread i = { s.thread i with results := [], w := none } :=
    update_self ..
  cases workerStep hs with
  | enter hpc | next hpc =>
    refine .inr (onward_of_update rfl rfl rfl ?_ nofun ⟨nofun, nofun⟩ fun t ht => ?_)
    · simp only [distance, hpc]
      omega
    · exact ht.setPc (hpc ▸ nofun)
  | leave _ hdown => nomatch hdown.symm.trans hrun
  | wait hpc hnil =>
    have hpcs : ((s.handBack i).setPc i (.wait false)).thread i =
        { (s.handBack i).thread i with pc := .wait false } := update_self ..
    refine .inl ⟨.inl hpc, ⟨[], rfl, ?_, fun _ hne => absurd hnil hne⟩,
      fun t ht => mem_append_right _ ht, ?_, rfl⟩
    · rw [hpcs, hback]
      exact hok.lock hpc
    · rw [hpcs]
      exact ⟨nofun, nofun⟩
  | take hpc htake =>
    have hpc' : ((s.handBack i).thread i).pc ≠ .wait false := by
      rw [hback, hpc]
      exact nofun
    have he : ((s.handBack i).thread i).e = [] := by
      rw [hback]
      exact hok.lock hpc
    obtain ⟨⟨taken, w, htaken, hth, hne⟩, hd, hdead⟩ := takeTasks_taken hpc' he htake
    refine .inl ⟨.inl hpc, ⟨taken, htaken, hth ▸ rfl, hne⟩, fun t ht => ?_,
      hth ▸ ⟨nofun, nofun⟩, hdead⟩
    rw [hd]
    exact mem_append_right _ ht
  | wake hpc htake =>
    obtain ⟨he, hres, -⟩ := hok.waits true hpc
    obtain ⟨⟨taken, w, htaken, hth, hne⟩, -, hdead⟩ := takeTasks_taken (hpc ▸ nofun) he htake
    refine .inl ⟨.inr hpc, ⟨taken, htaken, hth ▸ rfl, hne⟩, fun t ht => ?_,
      hth ▸ ⟨nofun, nofun⟩, hdead⟩
    rw [hres] at ht
    nomatch ht
  | start hpc he =>
    refine .inr (onward_of_update rfl rfl rfl ?_ nofun ⟨nofun, nofun⟩ fun u hu => ?_)
    · simp only [distance, hpc, he, length_cons]
      omega
    rcases hu with hu | hu | hu
    · rw [he] at hu
      rcases mem_cons.1 hu with rfl | hu
      · exact .inr (.inl rfl)
      · exact .inl hu
    · nomatch hpc.symm.trans hu
    · exact .inr (.inr hu)
  | finish hpc =>
    refine .inr (onward_of_update rfl rfl rfl ?_ nofun ⟨nofun, nofun⟩ fun u hu => ?_)
    · simp only [distance, hpc]
      omega
    rcases hu with hu | hu | hu
    · exact .inl hu
    · refine .inr (.inr (mem_append_right _ ?_))
      rw [Pc.busy.inj (hpc.symm.trans hu)]
      exact mem_singleton_self _
    · exact .inr (.inr (mem_append_left _ hu))
  | die hpc => exact absurd hpc halive

end Progress

/-! ### A pool that is not shut down -/

/-- What holds as long as nobody shuts the pool down. -/
structure Up (s : State) : Prop where
  inv : Inv s
  running : s.running = true
  free : ¬ s.GroupBlocked
  idle : s.waiter = .idle
  alive : ∀ i, (s.thread i).pc ≠ .left ∧ (s.thread i).pc ≠ .dead
  deadWorkers : s.deadWorkers = 0

section Up

variable {s s' : State} {batch i k : ℕ} {a : Act}

theorem up_init : Up init :=
  ⟨inv_init, rfl, by decide, rfl, fun _ => ⟨nofun, nofun⟩, rfl⟩

/-- Where the threads are after something that only wakes threads up, or adds one. -/
theorem Up.of_others (h : Up s) (hinv : Inv s') (hrun : s'.running = s.running)
    (hw : s'.waiter = s.waiter) (hd : s'.destroyed = s.destroyed)
    (hdead : s'.deadWorkers = s.deadWorkers)
    (hth : ∀ j, s'.thread j = s.thread j ∨ (s'.thread j).pc ≠ .left ∧ (s'.thread j).pc ≠ .dead) :
    Up s' := by
  refine ⟨hinv, hrun.trans h.running, fun hb => h.free ?_, hw.trans h.idle, fun j => ?_,
    hdead.trans h.deadWorkers⟩
  · unfold State.GroupBlocked at hb ⊢
    rwa [hw, hd] at hb
  · rcases hth j with hsame | halive
    · rw [hsame]
      exact h.alive j
    · exact halive

theorem update_alive {thread : ℕ → Thread} {th : Thread} (hth : th.pc ≠ .left ∧ th.pc ≠ .dead)
    (j : ℕ) : update thread i th j = thread j ∨
      (update thread i th j).pc ≠ .left ∧ (update thread i th j).pc ≠ .dead := by
  rw [update_apply]
  split_ifs
  · exact .inr hth
  · exact .inl rfl

/-- Only `shutdown` and the destructor end this. -/
theorem Up.step (h : Up s) (hshut : a ≠ .shutdown) (hdes : a ≠ .destroy)
    (hs : step batch s a = some s') : Up s' := by
  have hinv := h.inv.step hs
  cases step_cases hs with
  | execute | fetchRead | fetchDrain => exact h.of_others hinv rfl rfl rfl rfl fun _ => .inl rfl
  | @inject k =>
    rw [signal_eq] at hinv ⊢
    refine h.of_others hinv rfl rfl rfl rfl fun j => (s.injected.signal_others k j).imp_right ?_
    exact fun hw => hw.2 ▸ ⟨nofun, nofun⟩
  | addWorker | spurious => exact h.of_others hinv rfl rfl rfl rfl (update_alive ⟨nofun, nofun⟩)
  | @worker i k _ _ hs =>
    have hok := h.inv.attended.threads i
    have heff := effect_worker hok hs
    obtain ⟨hdead, halive⟩ : s'.deadWorkers = s.deadWorkers ∧
        ((s'.thread i).pc ≠ .left ∧ (s'.thread i).pc ≠ .dead) := by
      rcases worker_progress hok h.running (h.alive i).1 hs with hp | hp
      all_goals exact ⟨hp.deadWorkers, hp.alive⟩
    refine h.of_others hinv heff.frame.1 heff.frame.2.1 heff.frame.2.2 hdead fun j => ?_
    by_cases hj : j = i
    · exact .inr (hj ▸ halive)
    · rcases heff.others j hj with hsame | ⟨-, hwoken⟩
      · exact .inl hsame
      · rw [hwoken]
        exact .inr ⟨nofun, nofun⟩
  | shutdown => exact absurd rfl hshut
  | destroy => exact absurd rfl hdes
  | broadcast hw | down hw | returned hw => nomatch h.idle.symm.trans hw

/-- There is always a thread that a signal can go to. -/
theorem exists_canSignal (s : State) : ∃ k, s.CanSignal k := by
  by_cases h : ∃ k, s.Waits k
  · obtain ⟨k, hk⟩ := h
    exact ⟨k, .inl hk⟩
  · exact ⟨0, .inr fun i _ hi => h ⟨i, hi⟩⟩

theorem exists_takeTasks (s : State) (batch i : ℕ) : ∃ k, (s.takeTasks batch i k).isSome := by
  obtain ⟨k, hk⟩ := exists_canSignal
    (s.grab i ((s.thread i).e ++ s.toExecute.take batch) (s.toExecute.drop batch))
  refine ⟨k, ?_⟩
  rw [takeTasks_eq]
  rw [if_pos hk]
  split_ifs <;> rfl

/-- A worker that does not wait for a signal can go on. -/
theorem worker_enabled (hi : i < s.nThreads) (hpc : (s.thread i).pc ≠ .wait false)
    (hdead : (s.thread i).pc ≠ .dead) :
    ∃ a, (∃ k, a = Act.worker i k) ∧ (Pool.step batch s a).isSome := by
  have hstep : ∀ k, Pool.step batch s (.worker i k) = s.worker batch i k := fun k => if_pos hi
  suffices hex : ∃ k, (s.worker batch i k).isSome by
    obtain ⟨k, hk⟩ := hex
    exact ⟨_, ⟨k, rfl⟩, hstep k ▸ hk⟩
  unfold worker
  cases hc : (s.thread i).pc with
  | test | busy | left => exact ⟨0, rfl⟩
  | lock =>
    obtain ⟨k, hk⟩ := exists_takeTasks (s.handBack i) batch i
    refine ⟨k, ?_⟩
    dsimp only
    split_ifs
    · rfl
    · exact hk
  | wait b =>
    cases b with
    | false => exact absurd hc hpc
    | true => exact exists_takeTasks s batch i
  | exec =>
    refine ⟨0, ?_⟩
    cases (s.thread i).e with
    | nil => rfl
    | cons t e =>
      split_ifs <;> rfl
  | dead => exact absurd hc hdead

end Up

/-! ### Where a task goes -/

section Moves

variable {s s' : State} {batch i k t : ℕ} {a : Act}

/-- What a step does to the queues and the counters.  A task in `to_inject` stays there until
`inject` runs, and one in `to_dispatch` until `fetch` completes it. -/
structure Frame (a : Act) (s s' : State) : Prop where
  submitted : s.submitted ≤ s'.submitted
  nThreads : s.nThreads ≤ s'.nThreads
  running : s.running = false → s'.running = false
  destroyed : s.destroyed = true → s'.destroyed = true
  toInject : ∀ t ∈ s.toInject, t ∈ s'.toExecute ∨ (¬ ∃ k, a = .inject k) ∧ t ∈ s'.toInject
  executed : ∀ t ∈ s.executed, t ∈ s'.executed
  toDispatch : ∀ t ∈ s.toDispatch, t ∈ s'.completed ∨ t ∈ s'.toDispatch ∧ ¬ a = .fetchDrain ∧
    (a = .fetchRead → s'.fetch = .drain) ∧ (a ≠ .fetchRead → s'.fetch = s.fetch)
  completed : (a ≠ .fetchDrain → s'.completed = s.completed) ∧
    ∀ t ∈ s.completed, t ∈ s'.completed

theorem frame_step (h : Inv s) (hs : step batch s a = some s') : Frame a s s' := by
  cases step_cases hs with
  | inject =>
    rw [signal_eq]
    constructor <;> simp +contextual [injected]
  | execute | fetchRead | fetchDrain | addWorker | spurious | shutdown | destroy | broadcast | down
  | returned =>
    constructor <;> simp +contextual [execute, fetchDrain, addWorker, setPc, setThread, broadcast]
  | worker _ hs =>
    have heff := effect_worker (h.attended.threads _) hs
    obtain ⟨hrun, -, hdes⟩ := heff.frame
    obtain ⟨l, hl⟩ := heff.dispatched
    obtain ⟨x, hx⟩ := heff.executed
    exact ⟨heff.submitted.ge, heff.nThreads.ge, hrun.trans, hdes.trans,
      fun _ ht => .inr ⟨by simp, heff.toInject ▸ ht⟩, fun _ ht => hx ▸ mem_append_left _ ht,
      fun _ ht => .inr ⟨hl ▸ mem_append_left _ ht, by simp, by simp, fun _ => heff.fetch⟩,
      fun _ => heff.completed, fun _ ht => heff.completed ▸ ht⟩

/-- What a step that is not one of worker `i` does to this worker, if it does not wait. -/
theorem step_thread (h : Inv s) (hi : i < s.nThreads) (hpc : (s.thread i).pc ≠ .wait false)
    (ha : ¬ ∃ k, a = .worker i k) (hs : step batch s a = some s') :
    s'.thread i = s.thread i ∧ i < s'.nThreads := by
  have hw : ¬ s.Waits i := fun hw => hpc hw.2
  cases step_cases hs with
  | execute | fetchRead | fetchDrain | shutdown | destroy | down | returned => exact ⟨rfl, hi⟩
  | inject =>
    refine ⟨signal_thread hpc, ?_⟩
    rw [signal_nThreads]
    exact hi
  | addWorker => exact ⟨update_of_ne hi.ne _ _, hi.trans (Nat.lt_succ_self _)⟩
  | @worker j k _ _ hs =>
    have heff := effect_worker (h.attended.threads j) hs
    refine ⟨heff.same (fun heq => ha ⟨k, heq ▸ rfl⟩) hw, ?_⟩
    rw [heff.nThreads]
    exact hi
  | spurious hj =>
    refine ⟨update_of_ne (fun heq => hw ?_) _ _, hi⟩
    rw [heq]
    exact hj
  | broadcast => exact ⟨if_neg hw, hi⟩

/-- A task in `to_execute` moves to the front, or to a worker. -/
theorem step_toExecute (hbatch : 1 ≤ batch) (h : Up s) (ht : t ∈ s.toExecute)
    (hs : step batch s a = some s') :
    (∃ i, i < s'.nThreads ∧ t ∈ (s'.thread i).e) ∨
    (t ∈ s'.toExecute ∧ s'.toExecute.idxOf t < s.toExecute.idxOf t) ∨
    ((∀ i k, a = .worker i k → Onward i s s') ∧ t ∈ s'.toExecute ∧
      s'.toExecute.idxOf t = s.toExecute.idxOf t) := by
  cases step_cases hs with
  | execute | fetchRead | fetchDrain | addWorker | spurious | shutdown | destroy | broadcast | down
  | returned => exact .inr (.inr ⟨nofun, ht, rfl⟩)
  | inject =>
    rw [signal_eq]
    exact .inr (.inr ⟨nofun, mem_append_left _ ht, idxOf_append_of_mem ht⟩)
  | @worker i k _ hi hs =>
    have hok := h.inv.attended.threads i
    have hn := (effect_worker hok hs).nThreads
    rcases worker_progress hok h.running (h.alive i).1 hs with hp | hp
    · obtain ⟨taken, htaken, he, hne⟩ := hp.taken
      have hlen : 0 < taken.length := length_pos_of_ne_nil (hne hbatch (ne_nil_of_mem ht))
      by_cases hmem : t ∈ taken
      · exact .inl ⟨i, hn ▸ hi, he ▸ hmem⟩
      · rw [htaken] at ht ⊢
        refine .inr (.inl ⟨(mem_append.1 ht).resolve_left hmem, ?_⟩)
        rw [idxOf_append_of_notMem hmem]
        omega
    · refine .inr (.inr ⟨fun j k' heq => ?_, hp.toExecute ▸ ht, by rw [hp.toExecute]⟩)
      obtain ⟨rfl, -⟩ := Act.worker.inj heq
      exact hp

end Moves

/-! ### Executions -/

/-- The execution of a pool that is not shut down. -/
structure Serves {batch : ℕ} (e : Execution (step batch)) : Prop where
  start : e.state 0 = State.init
  up : ∀ n, e.act n ≠ some .shutdown ∧ e.act n ≠ some .destroy

/-- Every worker thread and both FSMs go on while they can. -/
structure FairlyServed {batch : ℕ} (e : Execution (step batch)) : Prop where
  worker : ∀ i, e.Fair fun a => ∃ k, a = .worker i k
  inject : e.Fair fun a => ∃ k, a = .inject k
  fetch : e.Fair fun a => a = .fetchRead ∨ a = .fetchDrain

section Live

variable {batch : ℕ} {e : Execution (step batch)} {t : ℕ}

theorem Serves.isUp (h : Serves e) (n : ℕ) : Up (e.state n) :=
  invariant_from (n := 0) (h.start ▸ up_init)
    (fun m _ _ ha hup hs => hup.step (fun heq => (h.up m).1 (heq ▸ ha))
      (fun heq => (h.up m).2 (heq ▸ ha)) hs) n n.zero_le

theorem Serves.mono (h : Serves e) {n m : ℕ} (hnm : n ≤ m) :
    (e.state n).submitted ≤ (e.state m).submitted ∧
      (e.state n).nThreads ≤ (e.state m).nThreads := by
  refine invariant_from
    (I := fun s : State => (e.state n).submitted ≤ s.submitted ∧ (e.state n).nThreads ≤ s.nThreads)
    ⟨le_rfl, le_rfl⟩ (fun k _ _ _ hle hs => ?_) m hnm
  have hf := frame_step (h.isUp k).inv hs
  exact ⟨hle.1.trans hf.submitted, hle.2.trans hf.nThreads⟩

theorem leadsTo_toExecute (h : Serves e) (hfair : FairlyServed e) :
    e.LeadsTo (fun s => t ∈ s.toInject) fun s => t ∈ s.toExecute := by
  refine leadsTo_of_fair hfair.inject (fun n hn => ?_) fun n a hn _ hs =>
    (frame_step (h.isUp n).inv hs).toInject t hn
  have hup := h.isUp n
  have hready := hup.inv.attended.inject (ne_nil_of_mem hn)
  obtain ⟨k, hk⟩ := exists_canSignal (e.state n).injected
  refine ⟨.inject k, ⟨k, rfl⟩, ?_⟩
  have hor : ¬ ((e.state n).GroupBlocked ∨ (e.state n).injectReady = false) := by
    rw [hready]
    exact fun hor => hor.elim hup.free nofun
  simp only [step]
  rw [if_neg hor]
  unfold inject
  exact (if_pos hk).symm ▸ rfl

/-- The task is in the queue, at this position, and worker `i` does not wait. -/
def Queued (t k i : ℕ) (s : State) : Prop :=
  t ∈ s.toExecute ∧ s.toExecute.idxOf t = k ∧ i < s.nThreads ∧ (s.thread i).pc ≠ .wait false

/-- Some worker has taken the task. -/
def Taken (t : ℕ) (s : State) : Prop := ∃ i, i < s.nThreads ∧ t ∈ (s.thread i).e

/-- A worker that does not wait takes the task, or at least one before it. -/
theorem leadsTo_of_queued (hbatch : 1 ≤ batch) (h : Serves e) (hfair : FairlyServed e) (k i : ℕ) :
    e.LeadsTo (Queued t k i) fun s => Taken t s ∨
      (t ∈ s.toExecute ∧ 0 < s.nThreads) ∧ s.toExecute.idxOf t < k := by
  refine Execution.LeadsTo.rank (fun s => (s.thread i).distance) fun r => ?_
  refine leadsTo_of_fair (hfair.worker i)
    (fun n hn => worker_enabled hn.1.2.2.1 hn.1.2.2.2 ((h.isUp n).alive i).2) fun n a hn _ hs => ?_
  obtain ⟨⟨hmem, hidx, hi, hpc⟩, hdist⟩ := hn
  have hup := h.isUp n
  have hn := (frame_step hup.inv hs).nThreads
  rcases step_toExecute hbatch hup hmem hs with hq | ⟨hmem', hlt⟩ | ⟨honward, hmem', hidx'⟩
  · exact .inl (.inl (.inl hq))
  · exact .inl (.inl (.inr ⟨⟨hmem', by omega⟩, hidx ▸ hlt⟩))
  by_cases ha : ∃ k, a = .worker i k
  · obtain ⟨k', rfl⟩ := ha
    have hon := honward i k' rfl
    exact .inl (.inr ⟨⟨hmem', hidx'.trans hidx, by omega, hon.goesOn⟩, hdist ▸ hon.nearer⟩)
  · obtain ⟨hsame, hi'⟩ := step_thread hup.inv hi hpc ha hs
    refine .inr ⟨ha, ⟨hmem', hidx'.trans hidx, hi', ?_⟩, ?_⟩
    · rw [hsame]
      exact hpc
    · rw [hsame]
      exact hdist

theorem leadsTo_taken (hbatch : 1 ≤ batch) (h : Serves e) (hfair : FairlyServed e) :
    e.LeadsTo (fun s => t ∈ s.toExecute ∧ 0 < s.nThreads) (Taken t) := by
  refine Execution.LeadsTo.rank (fun s => s.toExecute.idxOf t) fun k n hn => ?_
  obtain ⟨⟨hmem, hpos⟩, hidx⟩ := hn
  obtain ⟨i, hi, hw⟩ := (h.isUp n).inv.attended.queue (ne_nil_of_mem hmem) hpos
  exact leadsTo_of_queued hbatch h hfair k i n ⟨hmem, hidx, hi, fun hpc => hw ⟨hi, hpc⟩⟩

/-- Worker `i` has the task. -/
def With (t i : ℕ) (s : State) : Prop := i < s.nThreads ∧ (s.thread i).Carries t

/-- In its critical section, and where it waits, a worker has only results. -/
theorem With.mem_results {i : ℕ} {s : State} (h : With t i s) (hup : Up s)
    (hpc : (s.thread i).pc = .lock ∨ ∃ b, (s.thread i).pc = .wait b) :
    t ∈ (s.thread i).results := by
  have hok := hup.inv.attended.threads i
  obtain ⟨he, hidle⟩ : (s.thread i).e = [] ∧ (s.thread i).pc ≠ .busy t := by
    rcases hpc with hpc | ⟨b, hpc⟩
    · exact ⟨hok.lock hpc, hpc ▸ nofun⟩
    · exact ⟨(hok.waits b hpc).1, hpc ▸ nofun⟩
  rcases h.2 with hm | hm | hm
  · rw [he] at hm
    nomatch hm
  · exact absurd hm hidle
  · exact hm

/-- A worker with a task does not wait. -/
theorem With.not_wait {i : ℕ} {s : State} (h : With t i s) (hup : Up s) :
    (s.thread i).pc ≠ .wait false := by
  intro hpc
  have hm := h.mem_results hup (.inr ⟨false, hpc⟩)
  rw [((hup.inv.attended.threads i).waits false hpc).2.1] at hm
  nomatch hm

theorem leadsTo_toDispatch (h : Serves e) (hfair : FairlyServed e) (i : ℕ) :
    e.LeadsTo (With t i) fun s => t ∈ s.toDispatch := by
  refine Execution.LeadsTo.rank (fun s => (s.thread i).distance) fun r => ?_
  refine leadsTo_of_fair (hfair.worker i)
    (fun n hn => worker_enabled hn.1.1 (hn.1.not_wait (h.isUp n)) ((h.isUp n).alive i).2)
    fun n a hn _ hs => ?_
  obtain ⟨hwith, hdist⟩ := hn
  have hup := h.isUp n
  by_cases ha : ∃ k, a = .worker i k
  · obtain ⟨k, rfl⟩ := ha
    replace hs : (e.state n).worker batch i k = some (e.state (n + 1)) := by
      simp only [step] at hs
      rwa [if_pos hwith.1] at hs
    have hok := hup.inv.attended.threads i
    rcases worker_progress hok hup.running (hup.alive i).1 hs with hc | hon
    · exact .inl (.inl (hc.handed t (hwith.mem_results hup (hc.pc.imp_right fun h => ⟨_, h⟩))))
    · refine .inl (.inr ⟨⟨?_, hon.carries t hwith.2⟩, hdist ▸ hon.nearer⟩)
      rw [(effect_worker hok hs).nThreads]
      exact hwith.1
  · obtain ⟨hsame, hi⟩ := step_thread hup.inv hwith.1 (hwith.not_wait hup) ha hs
    refine .inr ⟨ha, ⟨hi, ?_⟩, ?_⟩
    · rw [hsame]
      exact hwith.2
    · rw [hsame]
      exact hdist

/-- As long as the group is not blocked, what was handed back is completed. -/
theorem leadsTo_completed {I : State → Prop} (hI : ∀ s, I s → Inv s ∧ ¬ s.GroupBlocked)
    (hstep : ∀ n a, e.act n = some a → I (e.state n) →
      step batch (e.state n) a = some (e.state (n + 1)) → I (e.state (n + 1)))
    (hfair : e.Fair fun a => a = .fetchRead ∨ a = .fetchDrain) :
    e.LeadsTo (fun s => I s ∧ t ∈ s.toDispatch) fun s => t ∈ s.completed := by
  refine Execution.LeadsTo.rank (fun s => if s.fetch = .drain then 0 else 1) fun r => ?_
  refine leadsTo_of_fair hfair (fun n hn => ?_) fun n a hn ha hs => ?_
  · obtain ⟨⟨hin, hmem⟩, -⟩ := hn
    obtain ⟨hinv, hfree⟩ := hI _ hin
    cases hf : (e.state n).fetch with
    | drain =>
      refine ⟨.fetchDrain, .inr rfl, ?_⟩
      simp only [step]
      rw [if_pos ⟨hfree, hf⟩]
      rfl
    | ready =>
      refine ⟨.fetchRead, .inl rfl, ?_⟩
      simp only [step]
      rw [if_neg hfree, if_pos (.inl hf)]
      rfl
    | blocked =>
      have hbytes := (hinv.attended.fetch (ne_nil_of_mem hmem)).resolve_left (not_not.2 hf)
      refine ⟨.fetchRead, .inl rfl, ?_⟩
      simp only [step]
      rw [if_neg hfree, if_pos (.inr ⟨hf, hbytes⟩)]
      rfl
  · obtain ⟨⟨hin, hmem⟩, hrank⟩ := hn
    have hin' := hstep n a ha hin hs
    rcases (frame_step (hI _ hin).1 hs).toDispatch t hmem with hdone | ⟨hmem', hne, hread, hsame⟩
    · exact .inl (.inl hdone)
    by_cases hread' : a = .fetchRead
    · by_cases hf : (e.state n).fetch = .drain
      · -- the pipe is not read before the tasks that were found are completed
        subst hread'
        simp only [step, hf] at hs
        split_ifs at hs with _ hcon
        rcases hcon with hcon | ⟨hcon, -⟩ <;> cases hcon
      · refine .inl (.inr ⟨⟨hin', hmem'⟩, ?_⟩)
        rw [if_pos (hread hread')]
        rw [if_neg hf] at hrank
        omega
    · refine .inr ⟨fun hor => hor.elim hread' hne, ⟨hin', hmem'⟩, ?_⟩
      rw [hsame hread']
      exact hrank

/-- A task that was submitted is somewhere. -/
theorem Counts.place {s : State} (h : Counts s) (ht : t < s.submitted) :
    t ∈ s.toInject ∨ t ∈ s.toExecute ∨ (∃ i, With t i s) ∨ t ∈ s.toDispatch ∨ t ∈ s.completed := by
  have hplaces := h.tasks t
  rw [if_pos ht] at hplaces
  by_contra hno
  push Not at hno
  obtain ⟨hin, hex, hwith, hdis, hcom⟩ := hno
  have hqueued : s.sum (queued t) = 0 := by
    unfold State.sum tsum
    refine Finset.sum_eq_zero fun i hi => count_eq_zero.2 fun hm => ?_
    exact hwith i ⟨Finset.mem_range.1 hi, .inl hm⟩
  have hran : s.sum (Thread.ran t) = 0 := by
    unfold State.sum tsum
    refine Finset.sum_eq_zero fun i hi => ?_
    have hno := fun hc => hwith i ⟨Finset.mem_range.1 hi, hc⟩
    unfold Thread.ran
    rw [if_neg fun hpc => hno (.inr (.inl hpc)),
      count_eq_zero.2 fun hm => hno (.inr (.inr hm)), Nat.add_zero]
  unfold places past at hplaces
  rw [hqueued, hran, count_eq_zero.2 hin, count_eq_zero.2 hex, count_eq_zero.2 hdis,
    count_eq_zero.2 hcom] at hplaces
  nomatch hplaces

/-- Every task that was submitted is completed. -/
theorem Serves.eventually_completed (hbatch : 1 ≤ batch) (h : Serves e) (hfair : FairlyServed e)
    (hworker : ∃ n, 0 < (e.state n).nThreads) {n : ℕ} (ht : t < (e.state n).submitted) :
    ∃ m, n ≤ m ∧ t ∈ (e.state m).completed := by
  obtain ⟨n0, hn0⟩ := hworker
  have hdispatch : e.LeadsTo (fun s => t ∈ s.toDispatch) fun s => t ∈ s.completed := by
    refine Execution.LeadsTo.trans (fun n ht => ⟨n, le_rfl, h.isUp n, ht⟩)
      (leadsTo_completed (I := Up) (fun s hup => ⟨hup.inv, hup.free⟩) (fun m a ha hup hs => ?_)
        hfair.fetch)
    exact hup.step (fun heq => (h.up m).1 (heq ▸ ha)) (fun heq => (h.up m).2 (heq ▸ ha)) hs
  have hwith (i : ℕ) := (leadsTo_toDispatch (t := t) h hfair i).trans hdispatch
  have htaken : e.LeadsTo (Taken t) fun s => t ∈ s.completed := by
    rintro m ⟨i, hi, hm⟩
    exact hwith i m ⟨hi, .inl hm⟩
  have hexec := (leadsTo_taken (t := t) hbatch h hfair).trans htaken
  have hpos {m : ℕ} (hm : n0 ≤ m) : 0 < (e.state m).nThreads := hn0.trans_le (h.mono hm).2
  -- from when there is a worker, the task is completed wherever it is
  have hle : n ≤ max n n0 := le_max_left _ _
  suffices hlater : ∃ m, max n n0 ≤ m ∧ t ∈ (e.state m).completed by
    obtain ⟨m, hm, hdone⟩ := hlater
    exact ⟨m, hle.trans hm, hdone⟩
  have ht' : t < (e.state (max n n0)).submitted := ht.trans_le (h.mono hle).1
  rcases (h.isUp _).inv.counts.place ht' with hm | hm | ⟨i, hm⟩ | hm | hm
  · obtain ⟨m, hle', hm⟩ := leadsTo_toExecute h hfair _ hm
    obtain ⟨m', hle'', hm⟩ := hexec m ⟨hm, hpos ((le_max_right _ _).trans hle')⟩
    exact ⟨m', hle'.trans hle'', hm⟩
  · exact hexec _ ⟨hm, hpos (le_max_right _ _)⟩
  · exact hwith i _ hm
  · exact hdispatch _ hm
  · exact ⟨_, le_rfl, hm⟩

end Live

/-! ### Every task is executed once -/

/-- What holds at every time: no task is executed or completed twice, none is completed that was
not executed, no worker object has two threads, `free_workers` was not popped when empty, and no
task is queued with everybody waiting. -/
structure Safe (s : State) : Prop where
  executed : ∀ t, s.executed.count t ≤ 1
  completed : ∀ t, s.completed.count t ≤ s.executed.count t
  submitted : ∀ t ∈ s.executed, t < s.submitted
  exclusive : ∀ i < s.nThreads, ∀ j < s.nThreads, ∀ w, (s.thread i).w = some w →
    (s.thread j).w = some w → i = j
  noUnderflow : s.underflow = false
  queue : s.toExecute ≠ [] → 0 < s.nThreads → ∃ i < s.nThreads, ¬ s.Waits i
  inject : s.toInject ≠ [] → s.injectReady = true

/-- Two threads with the same worker object are one thread. -/
theorem Counts.exclusive {s : State} (h : Counts s) {i j w : ℕ} (hi : i < s.nThreads)
    (hj : j < s.nThreads) (hwi : (s.thread i).w = some w) (hwj : (s.thread j).w = some w) :
    i = j := by
  by_contra hij
  have hpair : ∑ k ∈ {i, j}, has w (s.thread k) ≤ s.sum (has w) := by
    unfold State.sum tsum
    refine Finset.sum_le_sum_of_subset fun k hk => ?_
    rcases Finset.mem_insert.1 hk with rfl | hk
    · exact Finset.mem_range.2 hi
    · exact Finset.mem_range.2 (Finset.mem_singleton.1 hk ▸ hj)
  have hone (k : ℕ) (hk : (s.thread k).w = some w) : has w (s.thread k) = 1 := if_pos hk
  rw [Finset.sum_pair hij, hone i hwi, hone j hwj] at hpair
  have hw := h.workers w
  split_ifs at hw <;> omega

theorem Inv.safe {s : State} (h : Inv s) : Safe s := by
  have hle (t : ℕ) : s.past t ≤ if t < s.submitted then 1 else 0 :=
    (Nat.le_add_left _ _).trans_eq (h.counts.tasks t)
  refine ⟨fun t => ?_, fun t => ?_, fun t ht => ?_, fun i hi j hj w => h.counts.exclusive hi hj,
    h.counts.noUnderflow, h.attended.queue, h.attended.inject⟩
  · have := hle t
    rw [h.counts.ran t]
    split_ifs at this <;> omega
  · rw [h.counts.ran t]
    exact Nat.le_add_left _ _
  · by_contra hlt
    have := hle t
    rw [if_neg hlt, ← h.counts.ran t] at this
    have := count_pos_iff.2 ht
    omega

/-- **A pool that is not shut down executes and completes every task once**, for every interleaving
of its clients, its FSMs and its workers: what is `Safe` holds at every time, and tasks are
completed by the FSM `fetch` only.  If the scheduler is fair and a worker is added at some time,
then every task is executed and completed in the end. -/
theorem pool_executes_once {batch : ℕ} (hbatch : 1 ≤ batch) {e : Execution (step batch)}
    (h : Serves e) :
    (∀ n, Safe (e.state n)) ∧
    (∀ n, e.act n ≠ some .fetchDrain → (e.state (n + 1)).completed = (e.state n).completed) ∧
    (FairlyServed e → (∃ n, 0 < (e.state n).nThreads) →
      ∀ n t, t < (e.state n).submitted → ∃ m, ∀ k, m ≤ k →
        (e.state k).executed.count t = 1 ∧ (e.state k).completed.count t = 1) := by
  have hsafe (n : ℕ) : Safe (e.state n) := (h.isUp n).inv.safe
  refine ⟨hsafe, fun n hn => ?_, fun hfair hworker n t ht => ?_⟩
  · rcases e.next_cases n with hrest | ⟨a, ha, hs⟩
    · rw [hrest]
    · exact (frame_step (h.isUp n).inv hs).completed.1 fun heq => hn (heq ▸ ha)
  · obtain ⟨m, -, hm⟩ := h.eventually_completed hbatch hfair hworker ht
    refine ⟨m, fun k hk => ?_⟩
    have hmem : t ∈ (e.state k).completed :=
      invariant_from (I := fun s => t ∈ s.completed) hm
        (fun l _ _ _ hl hs => (frame_step (h.isUp l).inv hs).completed.2 t hl) k hk
    have hpos := count_pos_iff.2 hmem
    have hone := (hsafe k).executed t
    have hle := (hsafe k).completed t
    omega

/-- A run in which one worker executes two tasks in batches of one. -/
def sampleRun : List Act :=
  [.addWorker, .execute, .inject 0, .worker 0 0, .execute, .worker 0 0, .worker 0 0, .worker 0 0,
    .fetchRead, .inject 0, .worker 0 0, .worker 0 0, .worker 0 0, .fetchDrain, .worker 0 0,
    .worker 0 0, .worker 0 0, .worker 0 0, .worker 0 0, .fetchRead, .fetchDrain, .fetchRead,
    .fetchDrain]

theorem isSome_sampleRun : (run (step 1) init sampleRun).isSome := by decide

/-- The state after the sample run. -/
def sampleEnd : State := (run (step 1) State.init sampleRun).get isSome_sampleRun

theorem run_sampleRun : run (step 1) init sampleRun = some sampleEnd :=
  (Option.some_get _).symm

/-- After the sample run everybody waits. -/
theorem sampleEnd_rests : sampleEnd.nThreads = 1 ∧ (sampleEnd.thread 0).pc = .wait false ∧
    sampleEnd.injectReady = false ∧ sampleEnd.fetch = .blocked ∧ sampleEnd.bytes = 0 := by
  decide

/-- The execution that takes the sample run, and rests. -/
def sample : Execution (step 1) := .ofList (step 1) State.init sampleRun isSome_sampleRun

theorem serves_sample : Serves sample := by
  refine ⟨rfl, fun n => ?_⟩
  have hall : ∀ a ∈ sampleRun, a ≠ .shutdown ∧ a ≠ .destroy := by decide
  exact ⟨fun h => (hall _ (mem_of_getElem? h)).1 rfl, fun h => (hall _ (mem_of_getElem? h)).2 rfl⟩

theorem fairlyServed_sample : FairlyServed sample := by
  obtain ⟨hn, hpc, hinject, hfetch, hbytes⟩ := sampleEnd_rests
  refine ⟨fun i => fair_ofList run_sampleRun ?_,
    fair_ofList run_sampleRun ?_, fair_ofList run_sampleRun ?_⟩
  · rintro _ ⟨k, rfl⟩
    simp only [step]
    split_ifs with hi
    · obtain rfl : i = 0 := by omega
      unfold worker
      rw [hpc]
    · rfl
  · rintro _ ⟨k, rfl⟩
    simp only [step]
    rw [if_pos (.inr hinject)]
  · rintro _ (rfl | rfl)
    · simp [step, hfetch, hbytes]
    · simp [step, hfetch]

/-- The hypotheses of `pool_executes_once` are satisfiable: in the sample run two tasks are executed
and completed. -/
theorem pool_executes_once_sample : Serves sample ∧ FairlyServed sample ∧
    (sample.state 5).nThreads = 1 ∧ (sample.state 5).submitted = 2 ∧
    ∃ m, ∀ k, m ≤ k →
      (sample.state k).executed.count 1 = 1 ∧ (sample.state k).completed.count 1 = 1 :=
  ⟨serves_sample, fairlyServed_sample, by decide, by decide,
    (pool_executes_once le_rfl serves_sample).2.2 fairlyServed_sample ⟨5, by decide⟩ 5 1
      (by decide)⟩

end NoxClassic.Threads.Pool
