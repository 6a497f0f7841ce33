/-
# The reader-writer lock of cooperative threads

`Co_rwlock` records the writer that has the lock, counts the readers, and has a queue
of waiting events for each.  Threads (and FSMs) of a group run one at a time and give
up control only in `co_block`, so every function of the lock is one step here.

An unlocking thread hands the lock to waiters before they run: it wakes their events,
which sets `*acquired`.  A thread therefore has the lock from the moment its event is
woken, and `readers` and `writers` list the threads that have it in this sense, with
one entry for each time.

`read_wait` and `write_wait` only register an event.  The thread then may register
others, calls `co_block`, and runs again when one of its events was woken; all events
it has left are then cancelled, which takes them out of the queues.

An assertion that a thread must meet when it calls a function (that it has the lock it
unlocks, that it does not block with events registered) is part of when a step is
possible.

A writer that waits keeps new readers out.  Two things can go wrong
(`rwlock_broken`).  `write_unlock` wakes a waiting writer but does not record it as the
owner.  And when the last waiting writer is cancelled while readers have the lock, the
readers that queued behind it are forgotten: `read_unlock` only looks for writers.
-/

import NoxClassic.Lib.Run

namespace NoxClassic.Threads.RwLock

open Function List Option Lib

inductive Mode where
  | read
  | write
  deriving DecidableEq, Repr

/-- What a thread does. -/
inductive Status where
  | running
  /-- It is in `co_block`; `call` is the lock function that called it, if any. -/
  | blocked (call : Option Mode)
  deriving DecidableEq, Repr

/-- `Co_rwlock` and the threads that use it. -/
structure State (T : Type) where
  writeOwner : Option T
  readOwners : ℕ
  readWq : List T
  writeWq : List T
  status : T → Status
  /-- `COTF_READY`. -/
  ready : T → Bool
  /-- The size of `thread->events`. -/
  events : T → ℕ
  /-- The threads that have the lock for reading. -/
  readers : List T
  /-- The threads that have the lock for writing. -/
  writers : List T

section Model

variable {T : Type} [DecidableEq T] (s : State T) (t : T)

/-- `read_try_lock`: the state when the lock was taken. -/
def State.readTryLock : Option (State T) :=
  if s.writeOwner = none ∧ s.writeWq = [] then
    some { s with readOwners := s.readOwners + 1, readers := t :: s.readers }
  else none

/-- `write_try_lock`: the state when the lock was taken. -/
def State.writeTryLock : Option (State T) :=
  if s.readOwners = 0 ∧ s.writeOwner = none then
    some { s with writeOwner := some t, writers := t :: s.writers }
  else none

def State.tryLock : Mode → Option (State T)
  | .read => s.readTryLock t
  | .write => s.writeTryLock t

/-- `read_wq.wait` and `write_wq.wait`. -/
def State.enqueue (m : Mode) : State T :=
  let s := { s with events := update s.events t (s.events t + 1) }
  match m with
  | .read => { s with readWq := s.readWq ++ [t] }
  | .write => { s with writeWq := s.writeWq ++ [t] }

/-- `read_lock` and `write_lock`, up to their return or to `co_block`. -/
def State.lock (m : Mode) : State T :=
  match s.tryLock t m with
  | some s => s
  | none =>
    let s := s.enqueue t m
    { s with status := update s.status t (.blocked (some m)) }

/-- `co_immediate_wake`. -/
def State.immediateWake : State T :=
  { s with
    events := update s.events t (s.events t + 1)
    ready := update s.ready t true }

/-- `read_wait` and `write_wait`. -/
def State.wait (m : Mode) : State T :=
  match s.tryLock t m with
  | some s => s.immediateWake t
  | none => s.enqueue t m

/-- The thread whose event is woken runs again. -/
def State.makeReady (woken : List T) : State T :=
  { s with ready := fun u => if u ∈ woken then true else s.ready u }

/-- `read_unlock`. -/
def State.readUnlock : State T :=
  let s := { s with readOwners := s.readOwners - 1, readers := s.readers.erase t }
  if s.readOwners = 0 then
    match s.writeWq with
    | [] => { s with writeOwner := none }
    | u :: us =>
      { s.makeReady [u] with writeWq := us, writeOwner := some u, writers := u :: s.writers }
  else s

/-- `write_unlock`. -/
def State.writeUnlock : State T :=
  let s := { s with writeOwner := none, writers := s.writers.erase t }
  if s.readWq ≠ [] then
    { s.makeReady s.readWq with
      readOwners := s.readWq.length, readWq := [], readers := s.readWq ++ s.readers }
  else
    match s.writeWq with
    | [] => s
    -- `wake_n` wakes the writer, but nothing makes it the owner
    | u :: us => { s.makeReady [u] with writeWq := us, writers := u :: s.writers }

/-- The end of `co_block`: the events of the thread that are left are cancelled. -/
def State.resume : State T :=
  { s with
    readWq := s.readWq.filter (· ≠ t)
    writeWq := s.writeWq.filter (· ≠ t)
    status := update s.status t .running
    ready := update s.ready t false
    events := update s.events t 0 }

inductive Op (T : Type) where
  | tryLock (m : Mode) (t : T)
  | lock (m : Mode) (t : T)
  | wait (m : Mode) (t : T)
  /-- Another event is registered. -/
  | waitOther (t : T)
  /-- Another event of the thread is woken. -/
  | wake (t : T)
  | block (t : T)
  | resume (t : T)
  | unlock (m : Mode) (t : T)

/-- Whether a thread may do this, or can. -/
def State.Enabled : Op T → Prop
  | .tryLock _ t => s.status t = .running
  | .lock _ t => s.status t = .running ∧ s.events t = 0 ∧ s.writeOwner ≠ some t
  | .wait _ t => s.status t = .running
  | .waitOther t => s.status t = .running
  | .wake t => 0 < s.events t ∧ (s.status t = .running ∨ s.status t = .blocked none)
  | .block t => s.status t = .running
  | .resume t => s.status t ≠ .running ∧ s.ready t = true
  | .unlock .read t => s.status t = .running ∧ t ∈ s.readers ∧ s.readOwners ≠ 0
  | .unlock .write t => s.status t = .running ∧ t ∈ s.writers ∧ s.writeOwner = some t

instance : ∀ op : Op T, Decidable (s.Enabled op)
  | .tryLock _ _ | .wait _ _ | .waitOther _ | .block _ => inferInstanceAs (Decidable (_ = _))
  | .lock _ _ | .wake _ | .resume _ | .unlock .read _ | .unlock .write _ =>
    inferInstanceAs (Decidable (_ ∧ _))

def State.next : Op T → State T
  | .tryLock m t => (s.tryLock t m).getD s
  | .lock m t => s.lock t m
  | .wait m t => s.wait t m
  | .waitOther t => { s with events := update s.events t (s.events t + 1) }
  | .wake t => { s with ready := update s.ready t true }
  | .block t => { s with status := update s.status t (.blocked none) }
  | .resume t => s.resume t
  | .unlock .read t => s.readUnlock t
  | .unlock .write t => s.writeUnlock t

def step (op : Op T) : Option (State T) := if s.Enabled op then some (s.next op) else none

/-- `Co_rwlock::Co_rwlock`, with threads that run. -/
def State.init : State T := ⟨none, 0, [], [], fun _ => .running, fun _ => false, fun _ => 0, [], []⟩

end Model

/-! ### The invariant -/

section Safety

variable {T : Type} {s s' : State T} {t : T} {m : Mode}

/-- The queue of a mode. -/
def State.wq (s : State T) : Mode → List T
  | .read => s.readWq
  | .write => s.writeWq

/-- The threads that have the lock in a mode. -/
def State.holders (s : State T) : Mode → List T
  | .read => s.readers
  | .write => s.writers

/-- The lock knows who has it, every waiter waits for a reason, and a thread that can return from a
lock function has the lock. -/
structure Inv (s : State T) : Prop where
  writers : s.writers = s.writeOwner.toList
  readers : s.readOwners = s.readers.length
  exclusive : s.writeOwner ≠ none → s.readers = []
  writeWq : s.writeWq ≠ [] → s.writeOwner ≠ none ∨ s.readers ≠ []
  readWq : s.readWq ≠ [] → s.writeOwner ≠ none ∨ s.writeWq ≠ []
  returns : ∀ t, s.ready t = true → ∀ m, s.status t = .blocked (some m) → t ∈ s.holders m
  waits : ∀ m, ∀ t ∈ s.wq m, 0 < s.events t ∧ ∀ m', s.status t = .blocked (some m') → m' = m
  readyEvents : ∀ t, s.ready t = true → 0 < s.events t

theorem inv_init : Inv (State.init : State T) where
  writers := rfl
  readers := rfl
  exclusive := absurd rfl
  writeWq := absurd rfl
  readWq := absurd rfl
  returns _ := nofun
  waits m := by cases m <;> exact nofun
  readyEvents _ := nofun

/-- A thread takes the lock in a mode, and nothing changes for the others. -/
theorem Inv.tryLock (h : Inv s) (hs : s.tryLock t m = some s') :
    Inv s' ∧ s'.status = s.status ∧ s'.ready = s.ready ∧ s'.events = s.events := by
  cases m with
  | read =>
    obtain ⟨hfree, rfl⟩ := Lib.of_guard hs
    refine ⟨{ h with
      readers := congrArg Nat.succ h.readers
      exclusive := absurd hfree.1
      writeWq := absurd hfree.2
      returns := fun u hr m hst => ?_
      waits := h.waits }, rfl, rfl, rfl⟩
    have hmem := h.returns u hr m hst
    cases m with
    | read => exact mem_cons_of_mem _ hmem
    | write => exact hmem
  | write =>
    obtain ⟨hfree, rfl⟩ := Lib.of_guard hs
    have hwriters : s.writers = [] := by
      rw [h.writers, hfree.2]
      rfl
    refine ⟨{ h with
      writers := congrArg (List.cons t) hwriters
      exclusive := fun _ => length_eq_zero_iff.1 (h.readers ▸ hfree.1)
      writeWq := fun _ => .inl nofun
      readWq := fun _ => .inl nofun
      returns := fun u hr m hst => ?_
      waits := h.waits }, rfl, rfl, rfl⟩
    have hmem := h.returns u hr m hst
    cases m with
    | read => exact hmem
    | write => exact mem_cons_of_mem _ hmem

variable [DecidableEq T]

/-- Where the lock is unlocked or a waiter cancelled, nobody is forgotten: `write_unlock` finds a
reader that waits or no writer that waits, and a waiter that leaves the queue of writers empty
while readers have the lock leaves no reader behind. -/
def Careful (s : State T) : Op T → Prop
  | .unlock .write _ => s.readWq ≠ [] ∨ s.writeWq = []
  | .resume t => s.writeOwner = none → s.writeWq ≠ [] → s.writeWq.filter (· ≠ t) = [] →
      s.readWq.filter (· ≠ t) = []
  | _ => True

instance (s : State T) : ∀ op, Decidable (Careful s op)
  | .unlock .write _ => inferInstanceAs (Decidable (_ ∨ _))
  | .resume _ => inferInstanceAs (Decidable (_ → _))
  | .unlock .read _ | .tryLock _ _ | .lock _ _ | .wait _ _ | .waitOther _ | .wake _ | .block _ =>
    isTrue trivial

section

variable (h : Inv s)
include h

theorem Inv.waitOther : Inv { s with events := update s.events t (s.events t + 1) } := by
  have hevents : ∀ u, 0 < s.events u → 0 < update s.events t (s.events t + 1) u := fun u hu => by
    rw [update_apply]
    split_ifs
    · exact Nat.succ_pos _
    · exact hu
  exact { h with
    returns := h.returns
    waits := fun m u hu => (h.waits m u hu).imp_left (hevents u)
    readyEvents := fun u hr => hevents u (h.readyEvents u hr) }

omit h in
theorem mem_wq_enqueue {u : T} {m' : Mode} (hu : u ∈ (s.enqueue t m).wq m') :
    u ∈ s.wq m' ∨ u = t ∧ m' = m := by
  cases m <;> cases m' <;> simpa [State.enqueue, State.wq] using hu

/-- A thread that could not lock has a reason to wait. -/
theorem Inv.enqueue (hs : s.tryLock t m = none) (hst : s.status t = .running) :
    Inv (s.enqueue t m) := by
  have h' := h.waitOther (t := t)
  have hself : 0 < update s.events t (s.events t + 1) t :=
    update_self t _ s.events ▸ Nat.succ_pos _
  have hwaits : ∀ m', ∀ u ∈ (s.enqueue t m).wq m', 0 < update s.events t (s.events t + 1) u ∧
      ∀ m'', s.status u = .blocked (some m'') → m'' = m' := by
    intro m' u hu
    rcases mem_wq_enqueue hu with hu | ⟨rfl, rfl⟩
    · exact h'.waits m' u hu
    · exact ⟨hself, fun m'' hb => by rw [hst] at hb; cases hb⟩
  cases m with
  | read =>
    have hreason : s.writeOwner ≠ none ∨ s.writeWq ≠ [] := by
      simp only [State.tryLock, State.readTryLock] at hs
      split_ifs at hs with hfree
      tauto
    exact { h' with
      readWq := fun _ => hreason
      returns := h.returns
      waits := hwaits }
  | write =>
    have hreason : s.writeOwner ≠ none ∨ s.readers ≠ [] := by
      simp only [State.tryLock, State.writeTryLock, h.readers, length_eq_zero_iff] at hs
      split_ifs at hs with hfree
      tauto
    exact { h' with
      writeWq := fun _ => hreason
      readWq := fun hne => (h.readWq hne).imp_right fun _ => append_ne_nil_of_right_ne_nil _
        (cons_ne_nil _ _)
      returns := h.returns
      waits := hwaits }

/-- A thread that blocks in a lock function waits for this lock only. -/
theorem Inv.lock (hst : s.status t = .running) (hev : s.events t = 0) :
    Inv (s.lock t m) := by
  unfold State.lock
  cases hs : s.tryLock t m with
  | some s' => exact (h.tryLock hs).1
  | none =>
    have h' := h.enqueue hs hst
    have hother : ∀ u, u ≠ t → update (s.enqueue t m).status t (.blocked (some m)) u =
        (s.enqueue t m).status u := fun u hne => update_of_ne hne ..
    have hself : update (s.enqueue t m).status t (.blocked (some m)) t = .blocked (some m) :=
      update_self ..
    refine { h' with
      returns := fun u hr m' hu => h'.returns u hr m' ((hother u ?_).symm.trans hu)
      waits := fun m' u hu => ⟨(h'.waits m' u hu).1, fun m'' hst => ?_⟩ }
    · -- the thread is not ready yet
      rintro rfl
      have hpos := h.readyEvents u (by cases m <;> exact hr)
      omega
    · by_cases hut : u = t
      · -- and in no other queue
        subst hut
        cases hself.symm.trans hst
        rcases mem_wq_enqueue hu with hu | ⟨-, hm⟩
        · have hpos := (h.waits m' u hu).1
          omega
        · exact hm.symm
      · exact (h'.waits m' u hu).2 m'' ((hother u hut).symm.trans hst)

theorem Inv.wake (hev : 0 < s.events t)
    (hst : s.status t = .running ∨ s.status t = .blocked none) :
    Inv { s with ready := update s.ready t true } := by
  refine { h with
    returns := fun u hr m hu => h.returns u ?_ m hu
    waits := h.waits
    readyEvents := fun u hr => ?_ }
  · have hne : u ≠ t := by
      rintro rfl
      rw [hu] at hst
      rcases hst with hst | hst <;> cases hst
    exact (update_of_ne hne true s.ready).symm.trans hr
  · by_cases hut : u = t
    · exact hut ▸ hev
    · exact h.readyEvents u ((update_of_ne hut true s.ready).symm.trans hr)

theorem Inv.immediateWake (hst : s.status t = .running) : Inv (s.immediateWake t) :=
  have hev : 0 < update s.events t (s.events t + 1) t :=
    update_self t _ s.events ▸ Nat.succ_pos _
  h.waitOther.wake hev (.inl hst)

theorem Inv.wait (hst : s.status t = .running) : Inv (s.wait t m) := by
  unfold State.wait
  cases hs : s.tryLock t m with
  | some s' =>
    have h' := h.tryLock hs
    exact h'.1.immediateWake (h'.2.1 ▸ hst)
  | none => exact h.enqueue hs hst

theorem Inv.block : Inv { s with status := update s.status t (.blocked none) } := by
  have hold : ∀ u m, update s.status t (.blocked none) u = .blocked (some m) →
      s.status u = .blocked (some m) := fun u m hu => by
    by_cases hut : u = t
    · rw [hut, update_self] at hu
      cases hu
    · rwa [update_of_ne hut] at hu
  exact { h with
    returns := fun u hr m hu => h.returns u hr m (hold u m hu)
    waits := fun m u hu => (h.waits m u hu).imp_right fun hw m' hst => hw m' (hold u m' hst) }

/-- Waiters that are cancelled leave no reader without a reason to wait. -/
theorem Inv.resume (hc : Careful s (.resume t)) : Inv (s.resume t) := by
  have hready : ∀ u, (s.resume t).ready u = true → u ≠ t := by
    rintro u hr rfl
    have hoff : (s.resume u).ready u = false := update_self ..
    cases hoff.symm.trans hr
  have hold : ∀ u, u ≠ t → (s.resume t).ready u = s.ready u ∧
      (s.resume t).status u = s.status u ∧ (s.resume t).events u = s.events u :=
    fun u hne => ⟨update_of_ne hne .., update_of_ne hne .., update_of_ne hne ..⟩
  refine { h with
    writeWq := fun hne => ?_
    readWq := fun hne => ?_
    returns := fun u hr m hu => ?_
    waits := fun m u hu => ?_
    readyEvents := fun u hr => ?_ }
  · exact h.writeWq fun hnil => hne (by simp only [State.resume, hnil, filter_nil])
  · have hread : s.readWq ≠ [] := fun hnil => hne (by simp only [State.resume, hnil, filter_nil])
    by_contra hcon
    have hcon := not_or.1 hcon
    have hnone : s.writeOwner = none := not_not.1 hcon.1
    exact hne (hc hnone ((h.readWq hread).resolve_left (not_not.2 hnone)) (not_not.1 hcon.2))
  · obtain ⟨hrdy, hstatus, -⟩ := hold u (hready u hr)
    have hmem := h.returns u (hrdy ▸ hr) m (hstatus ▸ hu)
    cases m <;> exact hmem
  · obtain ⟨hu, hne⟩ : u ∈ s.wq m ∧ u ≠ t := by
      cases m <;> simpa [State.wq, State.resume] using hu
    obtain ⟨-, hstatus, hevents⟩ := hold u hne
    rw [hstatus, hevents]
    exact h.waits m u hu
  · obtain ⟨hrdy, -, hevents⟩ := hold u (hready u hr)
    rw [hevents]
    exact h.readyEvents u (hrdy ▸ hr)

omit h in
theorem ready_makeReady {woken : List T} {u : T} (hr : (s.makeReady woken).ready u = true) :
    u ∈ woken ∨ s.ready u = true := by
  simp only [State.makeReady] at hr
  split_ifs at hr with hu
  · exact .inl hu
  · exact .inr hr

/-- The last reader hands the lock to the first writer that waits. -/
theorem Inv.readUnlock (hst : s.status t = .running) (ht : t ∈ s.readers) :
    Inv (s.readUnlock t) := by
  have hnone : s.writeOwner = none := by
    by_contra hne
    rw [h.exclusive hne] at ht
    nomatch ht
  have hlen : s.readOwners - 1 = (s.readers.erase t).length := by
    rw [h.readers, length_erase_of_mem ht]
  have hreturns : ∀ u, s.ready u = true → ∀ m, s.status u = .blocked (some m) →
      u ∈ State.holders { s with readers := s.readers.erase t } m := fun u hr m hu => by
    have hne : u ≠ t := fun heq => by
      rw [heq, hst] at hu
      nomatch hu
    have hmem := h.returns u hr m hu
    cases m with
    | read => exact (mem_erase_of_ne hne).2 hmem
    | write => exact hmem
  unfold State.readUnlock
  dsimp only
  split_ifs with hzero
  · have hreaders : s.readers.erase t = [] := length_eq_zero_iff.1 (hlen ▸ hzero)
    cases hwq : s.writeWq with
    | nil =>
      have hread : s.readWq = [] := by
        by_contra hne
        rcases h.readWq hne with hcon | hcon
        · exact hcon hnone
        · exact hcon hwq
      exact { h with
        writers := h.writers.trans (congrArg _ hnone)
        readers := hlen
        exclusive := absurd rfl
        writeWq := absurd rfl
        readWq := absurd hread
        returns := hreturns
        waits := by
          rintro (_ | _) v hv
          · exact h.waits .read v hv
          · nomatch hv }
    | cons u us =>
      have hwriters : s.writers = [] := h.writers.trans (congrArg _ hnone)
      have hu := h.waits .write u (show u ∈ s.writeWq from hwq ▸ mem_cons_self)
      refine { h with
        writers := congrArg (List.cons u) hwriters
        readers := hlen
        exclusive := fun _ => hreaders
        writeWq := fun _ => .inl nofun
        readWq := fun _ => .inl nofun
        returns := fun v hr m hv => ?_
        waits := fun m v hv => h.waits m v ?_
        readyEvents := fun v hr => (ready_makeReady hr).elim
          (fun hmem => mem_singleton.1 hmem ▸ hu.1) (h.readyEvents v) }
      · rcases ready_makeReady hr with hmem | hr
        · obtain rfl := mem_singleton.1 hmem
          obtain rfl := hu.2 m hv
          exact mem_cons_self
        · cases m with
          | read => exact hreturns v hr .read hv
          | write => exact mem_cons_of_mem _ (h.returns v hr .write hv)
      · cases m with
        | read => exact hv
        | write => exact show v ∈ s.writeWq from hwq ▸ mem_cons_of_mem _ hv
  · exact { h with
      readers := hlen
      exclusive := absurd hnone
      writeWq := fun _ => .inr fun hnil => hzero (hlen.trans (congrArg _ hnil))
      returns := hreturns
      waits := h.waits }

/-- The writer hands the lock to all readers that wait; if there are none, no writer waits. -/
theorem Inv.writeUnlock (hst : s.status t = .running) (ht : s.writeOwner = some t)
    (hc : Careful s (.unlock .write t)) : Inv (s.writeUnlock t) := by
  have hreaders : s.readers = [] := h.exclusive (ht ▸ some_ne_none t)
  have hwriters : s.writers.erase t = [] := by
    rw [h.writers, ht, toList_some, erase_cons_head]
  have hreturns : ∀ u, s.ready u = true → s.status u ≠ .blocked (some .write) := fun u hr hu => by
    have hmem : u ∈ s.writers := h.returns u hr .write hu
    rw [h.writers, ht, toList_some, mem_singleton] at hmem
    rw [hmem, hst] at hu
    nomatch hu
  unfold State.writeUnlock
  dsimp only
  split_ifs with hread
  · refine { h with
      writers := hwriters
      readers := by rw [hreaders, append_nil]
      exclusive := absurd rfl
      writeWq := fun _ => .inr (append_ne_nil_of_left_ne_nil hread _)
      readWq := absurd rfl
      returns := fun u hr m hu => ?_
      waits := ?_
      readyEvents := fun u hr => (ready_makeReady hr).elim
        (fun hmem => (h.waits .read u hmem).1) (h.readyEvents u) }
    · rcases ready_makeReady hr with hmem | hr
      · obtain rfl := (h.waits .read u hmem).2 m hu
        exact mem_append_left _ hmem
      · cases m with
        | read => exact mem_append_right _ (h.returns u hr .read hu)
        | write => exact absurd hu (hreturns u hr)
    · rintro (_ | _) v hv
      · nomatch hv
      · exact h.waits .write v hv
  · have hwq : s.writeWq = [] := hc.resolve_left hread
    rw [hwq]
    refine { h with
      writers := hwriters
      exclusive := absurd rfl
      writeWq := absurd rfl
      readWq := fun hne => absurd hne hread
      returns := fun u hr m hu => ?_
      waits := ?_ }
    · cases m with
      | read => exact h.returns u hr .read hu
      | write => exact absurd hu (hreturns u hr)
    · rintro (_ | _) v hv
      · exact h.waits .read v hv
      · nomatch hv

end

/-- **Every step keeps the invariant** when nobody is forgotten. -/
theorem Inv.step {op : Op T} (h : Inv s) (hc : Careful s op)
    (hs : step s op = some s') : Inv s' := by
  obtain ⟨hen, rfl⟩ := Lib.of_guard hs
  cases op with
  | tryLock m t =>
    show Inv ((s.tryLock t m).getD s)
    cases htry : s.tryLock t m with
    | none => exact h
    | some s' => exact (h.tryLock htry).1
  | lock m t => exact h.lock hen.1 hen.2.1
  | wait m t => exact h.wait hen
  | waitOther t => exact h.waitOther
  | wake t => exact h.wake hen.1 hen.2
  | block t => exact h.block
  | resume t => exact h.resume hc
  | unlock m t =>
    cases m with
    | read => exact h.readUnlock hen.1 hen.2.1
    | write => exact h.writeUnlock hen.1 hen.2.2 hc

/-- **Exclusion and hand-over.**  In every run in which nobody is forgotten, a writer has the lock
alone, the lock records the writer and counts the readers, a thread that can return from
`write_lock` is the recorded owner and one that can return from `read_lock` is a counted reader,
and when no thread has the lock, none waits for it. -/
theorem rwlock_exclusion {ops : List (Op T)} (hc : Along step Careful State.init ops)
    (hrun : run step State.init ops = some s) :
    (∀ t ∈ s.writers, s.writers = [t] ∧ s.readers = []) ∧
    s.writers = s.writeOwner.toList ∧ s.readOwners = s.readers.length ∧
    (∀ t, s.ready t = true → s.status t = .blocked (some .write) → s.writeOwner = some t) ∧
    (∀ t, s.ready t = true → s.status t = .blocked (some .read) → t ∈ s.readers) ∧
    (s.writers = [] → s.readers = [] → s.readWq = [] ∧ s.writeWq = []) := by
  have h : Inv s := run_invariant_of_along (fun _ _ _ => Inv.step) inv_init hc hrun
  have howner : ∀ t ∈ s.writers, s.writeOwner = some t := fun t ht => by
    rw [h.writers] at ht
    exact mem_toList.1 ht
  refine ⟨fun t ht => ?_, h.writers, h.readers,
    fun t hr hst => howner t (h.returns t hr .write hst), fun t hr => h.returns t hr .read,
    fun hw hr => ?_⟩
  · have := howner t ht
    refine ⟨?_, h.exclusive (this ▸ some_ne_none t)⟩
    rw [h.writers, this, toList_some]
  · have hnone : s.writeOwner = none := by
      rw [h.writers] at hw
      exact toList_eq_nil_iff.1 hw
    have hwq : s.writeWq = [] := by
      by_contra hne
      rcases h.writeWq hne with hcon | hcon
      · exact hcon hnone
      · exact hcon hr
    refine ⟨?_, hwq⟩
    by_contra hne
    rcases h.readWq hne with hcon | hcon
    · exact hcon hnone
    · exact hcon hwq

end Safety

/-! ### Runs -/

/-- A reader has the lock, a writer waits with a timer, and the reader hands the lock over. -/
def handOver : List (Op ℕ) :=
  [.lock .read 1, .wait .write 2, .waitOther 2, .block 2, .unlock .read 1, .resume 2]

/-- The hypotheses of `rwlock_exclusion` are satisfiable. -/
theorem rwlock_exclusion_handOver :
    ∃ s, run step State.init handOver = some s ∧ s.writeOwner = some 2 ∧
      ∀ t ∈ s.writers, s.writers = [t] ∧ s.readers = [] := by
  have hc : Along step Careful State.init handOver := by decide
  exact ⟨_, rfl, rfl, (rwlock_exclusion hc rfl).1⟩

/-- Two writers: the first one unlocks, and a third locks before the second runs. -/
def twoWriters : List (Op ℕ) :=
  [.lock .write 1, .lock .write 2, .unlock .write 1, .lock .write 3, .resume 2]

/-- A writer that waits behind a reader is cancelled, and leaves a reader behind. -/
def forgottenReader : List (Op ℕ) :=
  [.lock .read 1, .wait .write 2, .waitOther 2, .block 2, .lock .read 3, .wake 2, .resume 2,
    .unlock .read 1]

/-- **Two ways to break the lock.**  Two writers return from `write_lock` and have the lock
together, and one of them is not the owner.  And a reader waits although no thread has the
lock. -/
theorem rwlock_broken :
    (∃ s, run step State.init twoWriters = some s ∧ s.writers = [3, 2] ∧ s.status 2 = .running ∧
      s.status 3 = .running ∧ s.writeOwner = some 3) ∧
    (∃ s, run step State.init forgottenReader = some s ∧ s.writers = [] ∧ s.readers = [] ∧
      s.readWq = [3]) :=
  ⟨⟨_, rfl, rfl, rfl, rfl, rfl⟩, ⟨_, rfl, rfl, rfl, rfl⟩⟩

end NoxClassic.Threads.RwLock
