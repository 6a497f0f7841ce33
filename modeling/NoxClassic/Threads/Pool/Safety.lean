/-
# The thread pool: every task in one place

Each task that was submitted is in exactly one place: in one of the queues, with a
worker thread, or completed.  Each worker object is free or has one thread, and there
are as many of them as threads, so a thread that wants one finds one.  The places are
counted (`Counts`), with sums over the threads; a step takes as much from one place as
it adds to another (`Counts.of_update`).

No queue is left unattended (`Attended`).  While `to_execute` has a task, some worker
does not wait for a signal: a worker waits only when it found the queue empty, and
`inject` signals one after it filled the queue.  While `to_dispatch` has a task, the
pipe has a byte or `fetch` is about to run.

Both hold in every state a pool reaches (`Inv.step`), also while it is shut down.
-/

import NoxClassic.Threads.Pool.Model
import Mathlib.Algebra.Order.BigOperators.Group.Finset

namespace NoxClassic.Threads.Pool

open Function List Option

/-! ### Sums over the worker threads -/

/-- The sum of a number that each worker thread has. -/
def tsum (n : ℕ) (thread : ℕ → Thread) (f : Thread → ℕ) : ℕ := ∑ i ∈ Finset.range n, f (thread i)

section Sums

variable {n i : ℕ} {thread : ℕ → Thread} {f : Thread → ℕ}

/-- One thread changes. -/
theorem tsum_update (hi : i < n) (th : Thread) :
    tsum n (update thread i th) f + f (thread i) = tsum n thread f + f th := by
  have hmem := Finset.mem_range.2 hi
  unfold tsum
  rw [← Finset.add_sum_erase _ _ hmem, ← Finset.add_sum_erase _ (fun j => f (thread j)) hmem,
    update_self]
  have hrest : ∑ j ∈ (Finset.range n).erase i, f (update thread i th j) =
      ∑ j ∈ (Finset.range n).erase i, f (thread j) :=
    Finset.sum_congr rfl fun j hj => by
      rw [update_of_ne (Finset.ne_of_mem_erase hj)]
  omega

/-- A thread is added. -/
theorem tsum_succ (th : Thread) : tsum (n + 1) (update thread n th) f = tsum n thread f + f th := by
  unfold tsum
  rw [Finset.sum_range_succ, update_self]
  congr 1
  refine Finset.sum_congr rfl fun j hj => ?_
  rw [update_of_ne (Finset.mem_range.1 hj).ne]

/-- If one of the threads has less than one, they have less than their number together. -/
theorem tsum_lt (hi : i < n) (hf : ∀ th, f th ≤ 1) (hzero : f (thread i) = 0) :
    tsum n thread f < n := by
  calc ∑ j ∈ Finset.range n, f (thread j)
      < ∑ _j ∈ Finset.range n, 1 :=
        Finset.sum_lt_sum (fun j _ => hf _) ⟨i, Finset.mem_range.2 hi, by omega⟩
    _ = n := by simp

end Sums

/-! ### Every task and every worker object is in one place -/

/-- How often the thread has the task among those it executes or has executed. -/
def Thread.ran (t : ℕ) (th : Thread) : ℕ := (if th.pc = .busy t then 1 else 0) + th.results.count t

/-- How often the thread has the task among those it will execute. -/
def Thread.queued (t : ℕ) (th : Thread) : ℕ := th.e.count t

/-- Whether the thread has the worker object. -/
def Thread.has (w : ℕ) (th : Thread) : ℕ := if th.w = some w then 1 else 0

/-- Whether the thread has a worker object. -/
def Thread.hasOne (th : Thread) : ℕ := if th.w.isSome then 1 else 0

namespace State

variable (s : State)

def sum (f : Thread → ℕ) : ℕ := tsum s.nThreads s.thread f

/-- How often the task was executed, from where it is now. -/
def past (t : ℕ) : ℕ := s.sum (Thread.ran t) + s.toDispatch.count t + s.completed.count t

/-- In how many places the task is. -/
def places (t : ℕ) : ℕ :=
  s.toInject.count t + s.toExecute.count t + s.sum (Thread.queued t) + s.past t

end State

/-- Each task that was submitted is in one place, and was executed when this place says so; each
worker object is free or has one thread. -/
structure Counts (s : State) : Prop where
  tasks : ∀ t, s.places t = if t < s.submitted then 1 else 0
  ran : ∀ t, s.executed.count t = s.past t
  workers : ∀ w, s.freeWorkers.count w + s.sum (Thread.has w) = if w < s.nThreads then 1 else 0
  free : s.freeWorkers.length + s.sum Thread.hasOne = s.nThreads
  noUnderflow : s.underflow = false

/-- The thread does not execute a task there. -/
def Pc.Idle (pc : Pc) : Prop := ∀ t, pc ≠ .busy t

variable {e toExecute : List ℕ} {pc : Pc} {th : Thread}

section Counts

variable {s : State} {i : ℕ}

theorem counts_init : Counts State.init :=
  ⟨fun t => by simp [State.places, State.past, State.sum, tsum, State.init],
    fun t => by simp [State.past, State.sum, tsum, State.init],
    fun w => by simp [State.sum, tsum, State.init],
    by simp [State.sum, tsum, State.init], rfl⟩

section

variable (h : Counts s)
include h

/-- Threads that change only in where they are. -/
theorem Counts.congr {thread : ℕ → Thread}
    (hth : ∀ j < s.nThreads, (thread j).e = (s.thread j).e ∧
      (thread j).results = (s.thread j).results ∧ (thread j).w = (s.thread j).w ∧
      ((thread j).pc = (s.thread j).pc ∨ (thread j).pc.Idle ∧ (s.thread j).pc.Idle)) :
    Counts { s with thread := thread } := by
  have hsum (f : Thread → ℕ) (hf : ∀ j < s.nThreads, f (thread j) = f (s.thread j)) :
      tsum s.nThreads thread f = tsum s.nThreads s.thread f :=
    Finset.sum_congr rfl fun j hj => hf j (Finset.mem_range.1 hj)
  have hran (t : ℕ) := hsum (Thread.ran t) fun j hj => by
    obtain ⟨-, hr, -, hpc⟩ := hth j hj
    unfold Thread.ran
    rw [hr]
    rcases hpc with hpc | ⟨h1, h2⟩
    · rw [hpc]
    · rw [if_neg (h1 t), if_neg (h2 t)]
  have hq (t : ℕ) := hsum (Thread.queued t) fun j hj => congrArg (List.count t) (hth j hj).1
  have hhas (w : ℕ) := hsum (Thread.has w) fun j hj => by
    unfold Thread.has
    rw [(hth j hj).2.2.1]
  have hone := hsum Thread.hasOne fun j hj => by
    unfold Thread.hasOne
    rw [(hth j hj).2.2.1]
  refine ⟨fun t => ?_, fun t => ?_, fun w => ?_, ?_, h.noUnderflow⟩
  · simpa only [State.places, State.past, State.sum, hran, hq] using h.tasks t
  · simpa only [State.past, State.sum, hran] using h.ran t
  · simpa only [State.sum, hhas] using h.workers w
  · simpa only [State.sum, hone] using h.free

theorem Counts.setPc (hnew : pc.Idle) (hold : (s.thread i).pc.Idle) : Counts (s.setPc i pc) := by
  refine h.congr fun j _ => ?_
  rw [update_apply]
  split_ifs with hj
  · subst hj
    exact ⟨rfl, rfl, rfl, .inr ⟨hnew, hold⟩⟩
  · exact ⟨rfl, rfl, rfl, .inl rfl⟩

theorem Counts.signal (k : ℕ) : Counts (s.signal k) := by
  unfold State.signal
  split_ifs with hk
  · exact h.setPc nofun (hk.2 ▸ nofun)
  · exact h

theorem Counts.broadcast : Counts s.broadcast := by
  refine h.congr fun j _ => ?_
  split_ifs with hj
  · exact ⟨rfl, rfl, rfl, .inr ⟨nofun, hj.2 ▸ nofun⟩⟩
  · exact ⟨rfl, rfl, rfl, .inl rfl⟩

/-- **One thread and the queues change.**  What a task or a worker object leaves, it enters
somewhere else. -/
theorem Counts.of_update {s' : State} {u v : Thread} (hn : s'.nThreads = s.nThreads)
    (hsum : ∀ f : Thread → ℕ, s'.sum f + f u = s.sum f + f v) (hsub : s'.submitted = s.submitted)
    (htasks : ∀ t, s'.toInject.count t + s'.toExecute.count t + v.queued t + v.ran t +
        s'.toDispatch.count t + s'.completed.count t =
      s.toInject.count t + s.toExecute.count t + u.queued t + u.ran t +
        s.toDispatch.count t + s.completed.count t)
    (hran : ∀ t, s'.executed.count t + (u.ran t + s.toDispatch.count t + s.completed.count t) =
      s.executed.count t + (v.ran t + s'.toDispatch.count t + s'.completed.count t))
    (hworkers : ∀ w, s'.freeWorkers.count w + v.has w = s.freeWorkers.count w + u.has w)
    (hfree : s'.freeWorkers.length + v.hasOne = s.freeWorkers.length + u.hasOne)
    (hunder : s'.underflow = false) : Counts s' := by
  refine ⟨fun t => ?_, fun t => ?_, fun w => ?_, ?_, hunder⟩
  · have h1 := htasks t
    have h2 := hsum (Thread.ran t)
    have h3 := hsum (Thread.queued t)
    rw [hsub, ← h.tasks t]
    unfold State.places State.past
    omega
  · have h1 := h.ran t
    have h2 := hran t
    have h3 := hsum (Thread.ran t)
    unfold State.past at h1 ⊢
    omega
  · have h1 := hworkers w
    have h2 := hsum (Thread.has w)
    rw [hn, ← h.workers w]
    omega
  · have h1 := h.free
    have h2 := hsum Thread.hasOne
    omega

section

variable (hi : i < s.nThreads)
include hi

theorem Counts.handBack (hpc : (s.thread i).pc.Idle) :
    Counts (s.handBack i) := by
  refine h.of_update rfl (fun _ => tsum_update hi _) rfl (fun t => ?_) (fun t => ?_) (fun w => ?_)
    ?_ h.noUnderflow
  · simp only [State.handBack, Thread.queued, Thread.ran, if_neg (hpc t), count_append,
      count_nil]
    omega
  · simp only [State.handBack, Thread.ran, if_neg (hpc t), count_append, count_nil]
    omega
  · unfold Thread.has State.handBack
    cases hw : (s.thread i).w with
    | none => simp [hw]
    | some v => simp [hw, count_cons]
  · unfold Thread.hasOne State.handBack
    cases hw : (s.thread i).w with
    | none | some => simp [hw]

/-- A thread without a worker object finds a free one. -/
theorem Counts.free_ne_nil (hw : (s.thread i).w = none) :
    s.freeWorkers ≠ [] := by
  intro hnil
  have hfree := h.free
  have hlt : s.sum Thread.hasOne < s.nThreads := tsum_lt hi
    (fun th => by unfold Thread.hasOne; split_ifs <;> omega) (by unfold Thread.hasOne; rw [hw]; rfl)
  rw [hnil, length_nil] at hfree
  omega

theorem Counts.popWorker (hpc : (s.thread i).pc.Idle)
    (hw : (s.thread i).w = none) : Counts (s.popWorker i) := by
  obtain ⟨v, free, hfree⟩ := exists_cons_of_ne_nil (h.free_ne_nil hi hw)
  refine h.of_update rfl (fun _ => tsum_update hi _) rfl (fun t => ?_) (fun t => ?_) (fun w => ?_)
    ?_ ?_
  · simp only [State.popWorker, Thread.queued, Thread.ran, if_neg (hpc t), reduceCtorEq, if_false]
  · simp only [State.popWorker, Thread.ran, if_neg (hpc t), reduceCtorEq, if_false]
  · simp only [State.popWorker, Thread.has, hfree, hw, tail_cons, List.head?_cons,
      count_cons, some.injEq, reduceCtorEq, if_false, beq_iff_eq, Nat.add_zero]
  · simp only [State.popWorker, Thread.hasOne, hfree, hw, tail_cons, List.head?_cons,
      length_cons, isSome_some, isSome_none, if_true, Bool.false_eq_true, if_false]
  · simp only [State.popWorker, hfree, h.noUnderflow, isEmpty_cons, Bool.or_self]

end

end

/-- A signal changes nothing but threads. -/
theorem State.signal_eq (s : State) (k : ℕ) :
    s.signal k = { s with thread := (s.signal k).thread } := by
  unfold State.signal
  split_ifs <;> rfl

theorem State.signal_others (s : State) (k j : ℕ) : (s.signal k).thread j = s.thread j ∨
    s.Waits j ∧ (s.signal k).thread j = { s.thread j with pc := .wait true } := by
  unfold State.signal
  split_ifs with hk
  · by_cases hj : j = k
    · subst hj
      exact .inr ⟨hk, update_self ..⟩
    · exact .inl (update_of_ne hj _ _)
  · exact .inl rfl

/-- A signal does not change a thread that does not wait for one. -/
theorem signal_thread {k : ℕ} (hpc : (s.thread i).pc ≠ .wait false) :
    (s.signal k).thread i = s.thread i :=
  (s.signal_others k i).resolve_right fun hw => hpc hw.1.2

theorem signal_nThreads {k : ℕ} : (s.signal k).nThreads = s.nThreads := by
  rw [State.signal_eq]

/-- A thread takes tasks from `to_execute`. -/
def State.grab (s : State) (i : ℕ) (e toExecute : List ℕ) : State :=
  { s with
    toExecute := toExecute
    thread := Function.update s.thread i { s.thread i with e := e } }

theorem State.takeTasks_eq {batch k : ℕ} : s.takeTasks batch i k =
    if batch < s.toExecute.length then
      let s' := s.grab i ((s.thread i).e ++ s.toExecute.take batch) (s.toExecute.drop batch)
      if s'.CanSignal k then some ((s'.signal k).popWorker i) else none
    else if 0 < s.toExecute.length then
      some ((s.grab i s.toExecute (s.thread i).e).popWorker i)
    else some (s.popWorker i) := rfl

theorem Counts.grab (h : Counts s) (hi : i < s.nThreads)
    (hperm : ∀ t, e.count t + toExecute.count t = (s.thread i).e.count t + s.toExecute.count t) :
    Counts (s.grab i e toExecute) := by
  refine h.of_update rfl (fun _ => tsum_update hi _) rfl (fun t => ?_) (fun _ => rfl)
    (fun _ => rfl) rfl h.noUnderflow
  have := hperm t
  simp only [State.grab, Thread.queued, Thread.ran]
  omega

/-- What a worker takes, when it has no tasks. -/
theorem takeTasks_cases {batch k : ℕ} {s' : State} (he : (s.thread i).e = [])
    (hs : s.takeTasks batch i k = some s') :
    ∃ taken rest s1, s.toExecute = taken ++ rest ∧ (1 ≤ batch → s.toExecute ≠ [] → taken ≠ []) ∧
      (s1 = s.grab i taken rest ∨ s1 = (s.grab i taken rest).signal k) ∧ s' = s1.popWorker i := by
  rw [State.takeTasks_eq] at hs
  dsimp only at hs
  rw [he, nil_append] at hs
  split_ifs at hs with h1 h2 h3
  · refine ⟨s.toExecute.take batch, s.toExecute.drop batch, _, (take_append_drop ..).symm,
      fun hb _ hnil => ?_, .inr rfl, (some.inj hs).symm⟩
    have := congrArg List.length hnil
    rw [length_take, length_nil] at this
    omega
  · exact ⟨s.toExecute, [], _, (append_nil _).symm, fun _ hne => hne, .inl rfl, (some.inj hs).symm⟩
  · have hnil : s.toExecute = [] := length_eq_zero_iff.1 (by omega)
    refine ⟨[], [], s, hnil, fun _ hne => absurd hnil hne, .inl ?_, (some.inj hs).symm⟩
    unfold State.grab
    rw [← he, update_eq_self, he, ← hnil]

/-- Tasks that leave `to_execute` are those of the thread. -/
theorem Counts.takeTasks {batch k : ℕ} {s' : State} (h : Counts s) (hi : i < s.nThreads)
    (hpc : (s.thread i).pc.Idle) (hw : (s.thread i).w = none)
    (hwait : (s.thread i).pc ≠ .wait false) (he : (s.thread i).e = [])
    (hs : s.takeTasks batch i k = some s') : Counts s' := by
  obtain ⟨taken, rest, s1, htaken, -, hs1, rfl⟩ := takeTasks_cases he hs
  have hgrab : Counts (s.grab i taken rest) := h.grab hi fun t => by
    rw [he, htaken, count_append, count_nil, Nat.zero_add]
  have hthread : (s.grab i taken rest).thread i = { s.thread i with e := taken } := update_self ..
  rcases hs1 with rfl | rfl
  · exact hgrab.popWorker hi (hthread ▸ hpc) (hthread ▸ hw)
  · have hsig := (signal_thread (k := k) (hthread ▸ hwait)).trans hthread
    exact (hgrab.signal k).popWorker (by rw [signal_nThreads]; exact hi) (hsig ▸ hpc) (hsig ▸ hw)

variable {t : ℕ}

section

variable (h : Counts s)
include h

theorem Counts.start (hi : i < s.nThreads)
    (hpc : (s.thread i).pc.Idle) (he : (s.thread i).e = t :: e) :
    Counts { s.setThread i { s.thread i with pc := .busy t, e := e } with
      executed := s.executed ++ [t] } := by
  refine h.of_update rfl (fun _ => tsum_update hi _) rfl (fun u => ?_) (fun u => ?_) (fun _ => rfl)
    rfl h.noUnderflow
  · simp only [State.setThread, Thread.queued, Thread.ran, if_neg (hpc u), he, count_cons,
      Pc.busy.injEq, beq_iff_eq]
    omega
  · simp only [State.setThread, Thread.ran, if_neg (hpc u), count_append,
      count_singleton, Pc.busy.injEq, beq_iff_eq]
    omega

theorem Counts.finish (hi : i < s.nThreads) (hpc : (s.thread i).pc = .busy t) :
    Counts (s.setThread i
      { s.thread i with pc := .exec, results := (s.thread i).results ++ [t] }) := by
  refine h.of_update rfl (fun _ => tsum_update hi _) rfl (fun u => ?_) (fun u => ?_) (fun _ => rfl)
    rfl h.noUnderflow
  · simp only [State.setThread, Thread.queued, Thread.ran, hpc, count_append,
      count_singleton, Pc.busy.injEq, beq_iff_eq, reduceCtorEq, if_false]
    omega
  · simp only [State.setThread, Thread.ran, hpc, count_append, count_singleton,
      Pc.busy.injEq, beq_iff_eq, reduceCtorEq, if_false]
    omega

theorem Counts.execute : Counts s.execute := by
  refine { h with tasks := fun t => ?_ }
  have h1 := h.tasks t
  unfold State.places State.past at h1
  show (s.toInject ++ [s.submitted]).count t + s.toExecute.count t + s.sum (Thread.queued t) +
    (s.sum (Thread.ran t) + s.toDispatch.count t + s.completed.count t) =
      if t < s.submitted + 1 then 1 else 0
  rw [count_append, count_singleton]
  simp only [beq_iff_eq]
  split_ifs at h1 ⊢ <;> omega

theorem Counts.injected : Counts s.injected := by
  refine h.of_update (u := s.thread 0) rfl (fun _ => rfl) rfl (fun t => ?_) (fun _ => rfl)
    (fun _ => rfl) rfl h.noUnderflow
  simp only [State.injected, count_append, count_nil]
  omega

theorem Counts.fetchDrain : Counts s.fetchDrain := by
  refine h.of_update (u := s.thread 0) rfl (fun _ => rfl) rfl (fun t => ?_) (fun t => ?_)
    (fun _ => rfl) rfl h.noUnderflow
  all_goals
    simp only [State.fetchDrain, count_append, count_nil]
    omega

theorem Counts.addWorker : Counts s.addWorker := by
  have hsucc : ∀ f : Thread → ℕ, f ⟨.test, [], [], none⟩ = 0 → s.addWorker.sum f = s.sum f :=
    fun f hf => by
      unfold State.sum State.addWorker
      rw [tsum_succ, hf, Nat.add_zero]
  refine ⟨fun t => ?_, fun t => ?_, fun w => ?_, ?_, h.noUnderflow⟩
  · have := h.tasks t
    unfold State.places State.past at this ⊢
    rw [hsucc _ rfl, hsucc _ rfl]
    exact this
  · have := h.ran t
    unfold State.past at this ⊢
    rw [hsucc _ rfl]
    exact this
  · have := h.workers w
    rw [hsucc _ rfl]
    show (s.freeWorkers ++ [s.nThreads]).count w + _ = if w < s.nThreads + 1 then 1 else 0
    rw [count_append, count_singleton]
    simp only [beq_iff_eq]
    split_ifs at this ⊢ <;> omega
  · have := h.free
    rw [hsucc _ rfl]
    show (s.freeWorkers ++ [s.nThreads]).length + _ = s.nThreads + 1
    rw [length_append, length_singleton]
    omega

end

end Counts

/-! ### The queues are attended to -/

/-- What a thread has where it is. -/
structure Thread.Ok (running : Bool) (th : Thread) : Prop where
  waits : ∀ b, th.pc = .wait b → th.e = [] ∧ th.results = [] ∧ th.w = none
  lock : th.pc = .lock → th.e = []
  test : th.pc = .test → running = true → th.e = []

/-- No queue is left with everybody waiting who could empty it. -/
structure Attended (s : State) : Prop where
  threads : ∀ i, (s.thread i).Ok s.running
  queue : s.toExecute ≠ [] → 0 < s.nThreads → ∃ i < s.nThreads, ¬ s.Waits i
  inject : s.toInject ≠ [] → s.injectReady = true
  fetch : s.toDispatch ≠ [] → s.fetch ≠ .blocked ∨ 0 < s.bytes

section Attended

variable {s : State} {i k : ℕ}

theorem attended_init : Attended State.init :=
  ⟨fun _ => ⟨fun _ => nofun, nofun, fun _ _ => rfl⟩, absurd rfl, absurd rfl, (absurd rfl)⟩

theorem Thread.Ok.wake {running b : Bool} (h : th.Ok running)
    (hpc : th.pc = .wait b) : Thread.Ok running { th with pc := .wait true } :=
  ⟨fun _ _ => h.waits b hpc, nofun, nofun⟩

theorem Attended.ok_update (h : Attended s) (hth : th.Ok s.running) :
    ∀ j, (update s.thread i th j).Ok s.running :=
  (forall_update_iff s.thread fun _ th => th.Ok s.running).2 ⟨hth, fun j _ => h.threads j⟩

theorem not_waits_setPc (hpc : pc ≠ .wait false) : ¬ (s.setPc i pc).Waits i := by
  rintro ⟨-, hw⟩
  simp only [State.setPc, State.setThread, update_self] at hw
  exact hpc hw

/-- After a signal some thread does not wait. -/
theorem exists_not_waits_signal (hk : s.CanSignal k) (hn : 0 < s.nThreads) :
    ∃ i < (s.signal k).nThreads, ¬ (s.signal k).Waits i := by
  rw [signal_nThreads]
  rcases hk with hk | hall
  · rw [State.signal, if_pos hk]
    exact ⟨k, hk.1, not_waits_setPc nofun⟩
  · refine ⟨0, hn, ?_⟩
    rw [State.signal]
    split_ifs with hk
    · exact absurd hk (hall k hk.1)
    · exact hall 0 hn

/-- A thread that goes on, and does not wait. -/
theorem Attended.of_update {s' : State} (h : Attended s) (hi : i < s.nThreads)
    (hn : s'.nThreads = s.nThreads) (hthread : s'.thread = update s.thread i th)
    (hrun : s'.running = s.running) (hth : th.Ok s.running) (hpc : th.pc ≠ .wait false)
    (hinject : s'.toInject = s.toInject ∧ s'.injectReady = s.injectReady)
    (hfetch : s'.toDispatch ≠ [] → s'.fetch ≠ .blocked ∨ 0 < s'.bytes) : Attended s' := by
  refine ⟨?_, fun _ _ => ⟨i, hn ▸ hi, fun hw => hpc ?_⟩, ?_, hfetch⟩
  · rw [hthread, hrun]
    exact h.ok_update hth
  · have := hw.2
    rwa [hthread, update_self] at this
  · rw [hinject.1, hinject.2]
    exact h.inject

theorem Attended.setPc (h : Attended s) (hi : i < s.nThreads)
    (hok : Thread.Ok s.running { s.thread i with pc := pc }) (hpc : pc ≠ .wait false) :
    Attended (s.setPc i pc) :=
  h.of_update hi rfl rfl rfl hok hpc ⟨rfl, rfl⟩ h.fetch

theorem Attended.handBack (h : Attended s) (hi : i < s.nThreads) (hpc : (s.thread i).pc = .lock) :
    Attended (s.handBack i) := by
  have he := (h.threads i).lock hpc
  refine h.of_update hi rfl rfl rfl ⟨fun b hb => ?_, fun _ => he, fun hb => ?_⟩ ?_ ⟨rfl, rfl⟩ ?_
  · rw [hpc] at hb
    nomatch hb
  · rw [hpc] at hb
    nomatch hb
  · rw [hpc]
    exact nofun
  · intro hne
    simp only [State.handBack] at hne ⊢
    have := h.fetch
    cases hd : s.toDispatch with
    | nil =>
      rw [hd, nil_append] at hne
      cases hr : (s.thread i).results with
      | nil => exact absurd hr hne
      | cons t ts =>
        simp only [isEmpty_nil, isEmpty_cons, Bool.not_false, Bool.and_self, if_true]
        omega
    | cons t ts =>
      exact this (hd ▸ cons_ne_nil _ _)

theorem Attended.takeTasks {batch : ℕ} {s' : State} (h : Attended s) (hi : i < s.nThreads)
    (he : (s.thread i).e = []) (hs : s.takeTasks batch i k = some s') : Attended s' := by
  obtain ⟨taken, rest, s1, -, -, hs1, rfl⟩ := takeTasks_cases he hs
  -- the other threads are as before, but for a signal
  obtain ⟨thread, rfl, hothers⟩ : ∃ thread, s1 = { s.grab i taken rest with thread } ∧
      ∀ j, j ≠ i → (thread j).Ok s.running := by
    have hsame : ∀ j, j ≠ i → (s.grab i taken rest).thread j = s.thread j :=
      fun j hj => update_of_ne hj _ _
    rcases hs1 with rfl | rfl
    · exact ⟨(s.grab i taken rest).thread, rfl, fun j hj => hsame j hj ▸ h.threads j⟩
    · refine ⟨_, State.signal_eq _ k, fun j hj => ?_⟩
      rcases State.signal_others _ k j with hs | ⟨hw, hs⟩ <;> rw [hs, hsame j hj]
      · exact h.threads j
      · exact (h.threads j).wake (hsame j hj ▸ hw.2)
  refine ⟨fun j => ?_, fun _ _ => ⟨i, hi, fun hw => ?_⟩, h.inject, h.fetch⟩
  · by_cases hj : j = i
    · subst hj
      simp only [State.popWorker, update_self]
      exact ⟨fun _ => nofun, nofun, nofun⟩
    · simp only [State.popWorker, update_of_ne hj]
      exact hothers j hj
  · have := hw.2
    simp [State.popWorker] at this

end Attended

/-! ### The invariant -/

/-- Tasks and worker objects are in their places, and the queues are attended to. -/
structure Inv (s : State) : Prop where
  counts : Counts s
  attended : Attended s

section Inv

variable {s s' : State} {batch i k : ℕ}

theorem inv_init : Inv State.init := ⟨counts_init, attended_init⟩

/-- A worker that hands back what it has, and then waits. -/
theorem Inv.wait (h : Inv s) (hi : i < s.nThreads) (hpc : (s.thread i).pc = .lock)
    (hnil : s.toExecute = []) : Inv ((s.handBack i).setPc i (.wait false)) := by
  have hidle : (s.thread i).pc.Idle := hpc ▸ nofun
  have hth : (s.handBack i).thread i = { s.thread i with results := [], w := none } :=
    update_self ..
  have hb := h.attended.handBack hi hpc
  refine ⟨(h.counts.handBack hi hidle).setPc nofun (hth ▸ hidle), ?_, absurd hnil,
    hb.inject, hb.fetch⟩
  refine hb.ok_update ⟨fun b _ => ?_, nofun, nofun⟩
  rw [hth]
  exact ⟨(h.attended.threads i).lock hpc, rfl, rfl⟩

theorem Inv.worker (h : Inv s) (hi : i < s.nThreads) (hs : s.worker batch i k = some s') :
    Inv s' := by
  have hok := h.attended.threads i
  cases workerStep hs with
  | enter hpc hrun =>
    exact ⟨h.counts.setPc nofun (hpc ▸ nofun),
      h.attended.setPc hi ⟨fun _ => nofun, fun _ => hok.test hpc hrun, nofun⟩ nofun⟩
  | leave hpc hrun =>
    exact ⟨h.counts.setPc nofun (hpc ▸ nofun),
      h.attended.setPc hi ⟨fun _ => nofun, nofun, nofun⟩ nofun⟩
  | wait hpc hnil => exact h.wait hi hpc hnil
  | take hpc htake =>
    have hidle : (s.thread i).pc.Idle := hpc ▸ nofun
    have hth : (s.handBack i).thread i = { s.thread i with results := [], w := none } :=
      update_self ..
    have he : ((s.handBack i).thread i).e = [] := hth ▸ hok.lock hpc
    have hwait : ((s.handBack i).thread i).pc ≠ .wait false := by
      rw [hth, hpc]
      exact nofun
    exact ⟨(h.counts.handBack hi hidle).takeTasks hi (hth ▸ hidle) (by rw [hth]) hwait he htake,
      (h.attended.handBack hi hpc).takeTasks hi he htake⟩
  | wake hpc htake =>
    obtain ⟨he, -, hw⟩ := hok.waits true hpc
    exact ⟨h.counts.takeTasks hi (hpc ▸ nofun) hw (hpc ▸ nofun) he htake,
      h.attended.takeTasks hi he htake⟩
  | next hpc he =>
    refine ⟨h.counts.setPc nofun (hpc ▸ nofun),
      h.attended.setPc hi ⟨fun _ => nofun, nofun, fun _ hrun => ?_⟩ nofun⟩
    exact he.resolve_right fun hdown => Bool.false_ne_true (hdown.symm.trans hrun)
  | start hpc he hrun =>
    exact ⟨h.counts.start hi (hpc ▸ nofun) he, h.attended.of_update hi rfl rfl rfl
      ⟨fun _ => nofun, nofun, nofun⟩ nofun ⟨rfl, rfl⟩ h.attended.fetch⟩
  | finish hpc =>
    exact ⟨h.counts.finish hi hpc, h.attended.of_update hi rfl rfl rfl
      ⟨fun _ => nofun, nofun, nofun⟩ nofun ⟨rfl, rfl⟩ h.attended.fetch⟩
  | die hpc =>
    have hc : Counts (s.setPc i .dead) := h.counts.setPc nofun (hpc ▸ nofun)
    exact ⟨{ hc with },
      h.attended.of_update hi rfl rfl rfl ⟨fun _ => nofun, nofun, nofun⟩ nofun ⟨rfl, rfl⟩
        h.attended.fetch⟩

theorem Inv.addWorker (h : Inv s) : Inv s.addWorker := by
  refine ⟨h.counts.addWorker, ?_, fun _ _ => ⟨s.nThreads, Nat.lt_succ_self _, fun hw => ?_⟩,
    h.attended.inject, h.attended.fetch⟩
  · exact h.attended.ok_update ⟨fun _ => nofun, nofun, fun _ _ => rfl⟩
  · have hw' : (update s.thread s.nThreads ⟨.test, [], [], none⟩ s.nThreads).pc =
        .wait false := hw.2
    rw [update_self] at hw'
    nomatch hw'

theorem Inv.inject (h : Inv s) (hk : s.injected.CanSignal k) : Inv (s.injected.signal k) := by
  refine ⟨h.counts.injected.signal k, ?_, fun _ hn => ?_, ?_, ?_⟩
  · intro j
    rw [State.signal_eq]
    rcases s.injected.signal_others k j with hsame | ⟨hw, hwoken⟩
    · exact hsame ▸ h.attended.threads j
    · exact hwoken ▸ (h.attended.threads j).wake hw.2
  · rw [signal_nThreads] at hn
    exact exists_not_waits_signal hk hn
  · rw [State.signal_eq]
    exact absurd rfl
  · rw [State.signal_eq]
    exact h.attended.fetch

theorem broadcast_thread (s : State) (j : ℕ) :
    ¬ s.Waits j ∧ s.broadcast.thread j = s.thread j ∨
      s.Waits j ∧ s.broadcast.thread j = { s.thread j with pc := .wait true } := by
  unfold State.broadcast
  dsimp only
  split_ifs with hw
  · exact .inr ⟨hw, rfl⟩
  · exact .inl ⟨hw, rfl⟩

/-- After a broadcast no thread waits. -/
theorem not_waits_broadcast {j : ℕ} : ¬ s.broadcast.Waits j := by
  rintro ⟨hj, hpc⟩
  rcases broadcast_thread s j with ⟨hw, hsame⟩ | ⟨-, hwoken⟩
  · exact hw ⟨hj, hsame ▸ hpc⟩
  · rw [hwoken] at hpc
    nomatch hpc

theorem Inv.broadcast (h : Inv s) : Inv { s.broadcast with waiter := .down 0 } := by
  have hc := h.counts.broadcast
  refine ⟨{ hc with }, fun j => ?_,
    fun _ hn => ⟨0, hn, not_waits_broadcast (s := s)⟩, h.attended.inject, h.attended.fetch⟩
  rcases broadcast_thread s j with ⟨-, hsame⟩ | ⟨hw, hwoken⟩
  · rw [hsame]
    exact h.attended.threads j
  · rw [hwoken]
    exact (h.attended.threads j).wake hw.2

/-- **Every step keeps the invariant.** -/
theorem Inv.step {a : Act} (h : Inv s) (hs : step batch s a = some s') : Inv s' := by
  obtain ⟨hc, ha⟩ := h
  cases step_cases hs with
  | execute => exact ⟨hc.execute, { ha with inject := fun _ => rfl }⟩
  | inject _ hk => exact Inv.inject ⟨hc, ha⟩ hk
  | fetchRead =>
    exact ⟨{ hc with }, { ha with fetch := fun _ => .inl nofun }⟩
  | fetchDrain => exact ⟨hc.fetchDrain, { ha with fetch := absurd rfl }⟩
  | addWorker => exact Inv.addWorker ⟨hc, ha⟩
  | worker hi hs => exact Inv.worker ⟨hc, ha⟩ hi hs
  | spurious hw =>
    exact ⟨hc.setPc nofun (hw.2 ▸ nofun), ha.setPc hw.1 ((ha.threads _).wake hw.2) nofun⟩
  | shutdown | destroy =>
    exact ⟨{ hc with },
      { ha with threads := fun i => { ha.threads i with test := fun _ => nofun } }⟩
  | broadcast => exact Inv.broadcast ⟨hc, ha⟩
  | down | returned =>
    exact ⟨{ hc with }, { ha with }⟩

end Inv

end NoxClassic.Threads.Pool
