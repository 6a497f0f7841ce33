/-
# The event dispatcher

`Event_dispatcher` in `src/lib/event-dispatcher.cc`.  Events are posted to a
queue; `poll()` takes the length of the queue, then pops and dispatches that
many events.  A handler may block.  Its thread is then suspended inside
`dispatch()`, other threads post events and run `poll()` themselves, and the
first activation goes on later with a count that the queue no longer backs.  Only
`serial`, bumped by every `poll()` and read again after each dispatch, stops it.

The model has one step for every stretch of code between two points where a
thread can be suspended: `addHandler`, `post`, the start of a `poll()` up to the
first handler it enters (`Act.poll`), and what follows when a handler returns, up
to the next handler entered or the end of the activation (`Act.ret`).  `serial`
is an `unsigned int` and wraps.  `Co_cond` and `wait()` decide only when a
thread calls `poll()`, which any action list may do at any time.

The handlers of a name are a `multimap` from their order: a new one goes behind
those of its order, also while a dispatch is walking the list, and the walk goes
on from where it stands.
-/

import NoxClassic.Lib.Run
import Mathlib.Data.UInt

namespace NoxClassic.Dispatch

open List Option

/-- How a handler ends: the two `Disposition`s, an exception derived from
`std::exception`, which `dispatch()` catches, and any other one, which leaves
`poll()`. -/
inductive Outcome where
  | cont
  | stop
  | exception
  | foreign
  deriving DecidableEq, Repr

/-- `Signal`: the handlers of one name in calling order, each with its order and
the number `add_handler` gave it. -/
abbrev Signal := List (ℤ × ℕ)

/-- `multimap::insert`: behind every handler of at most the same order. -/
def Signal.insert (order : ℤ) (handler : ℕ) : Signal → Signal
  | [] => [(order, handler)]
  | h :: hs =>
    if h.1 ≤ order then h :: Signal.insert order handler hs else (order, handler) :: h :: hs

/-- The handler behind `handler` in the list as it now is. -/
def Signal.next (handler : ℕ) : Signal → Option ℕ
  | [] => none
  | h :: hs => if h.2 = handler then hs.head?.map Prod.snd else Signal.next handler hs

/-- `Event_dispatcher_impl` over the events `ε` and their names `ν`. -/
structure EventDispatcher (ε ν : Type) where
  table : ν → Signal
  queue : List ε
  serial : UInt32

/-- One `poll()` suspended in a handler: the number of the poll, its local
`serial`, how many iterations of its loop are left after this one (`max - i - 1`),
the event it dispatches and the handler it is in. -/
structure Activation (ε : Type) where
  no : ℕ
  serial : UInt32
  left : ℕ
  event : ε
  handler : ℕ

/-- The dispatcher with its suspended activations and what has happened so far:
`posted` and `started` are the events posted and those whose dispatch started, the
latter with the number of the poll, and `begun` has for each poll how many
dispatches had started and how many events had been posted when it began.
`crashed` is set by a `pop_front()` of an empty queue. -/
structure World (ε ν : Type) where
  dispatcher : EventDispatcher ε ν
  active : List (Activation ε)
  handlers : ℕ
  posted : List ε
  started : List (ℕ × ε)
  begun : List (ℕ × ℕ)
  crashed : Bool

variable {ε ν : Type}

/-- A dispatcher just constructed. -/
def World.initial : World ε ν where
  dispatcher := { table := fun _ => [], queue := [], serial := 0 }
  active := []
  handlers := 0
  posted := []
  started := []
  begun := []
  crashed := false

/-- `add_handler`. -/
def World.addHandler [DecidableEq ν] (w : World ε ν) (name : ν) (order : ℤ) : World ε ν :=
  { w with
    dispatcher.table := fun n => if n = name then (w.dispatcher.table n).insert order w.handlers
      else w.dispatcher.table n
    handlers := w.handlers + 1 }

/-- `post`. -/
def World.post (w : World ε ν) (event : ε) : World ε ν :=
  { w with dispatcher.queue := w.dispatcher.queue ++ [event], posted := w.posted ++ [event] }

/-- The loop of `poll()` number `no` with `left` iterations to go, run until a
handler is entered or the activation ends.  A name without handlers is
dispatched without a handler being called, and the loop goes on. -/
def World.pollLoop (name : ε → ν) (no : ℕ) (serial : UInt32) : ℕ → World ε ν → World ε ν
  | 0, w => w
  | left + 1, w =>
    match w.dispatcher.queue with
    | [] => { w with crashed := true }
    | event :: queue =>
      let w' := { w with dispatcher.queue := queue, started := w.started ++ [(no, event)] }
      match (w.dispatcher.table (name event)).head? with
      | none => if serial ≠ w'.dispatcher.serial then w' else pollLoop name no serial left w'
      | some h =>
        { w' with active := { no, serial, left, event, handler := h.2 } :: w'.active }

/-- `poll()` from its start: `max` and `serial` are taken, then the loop runs. -/
def World.poll (name : ε → ν) (w : World ε ν) : World ε ν :=
  let serial := w.dispatcher.serial + 1
  pollLoop name w.begun.length serial w.dispatcher.queue.length
    { w with
      dispatcher.serial := serial
      begun := w.begun ++ [(w.started.length, w.posted.length)] }

/-- The handler that activation `a` is in returns: the walk of `dispatch()` goes
on to the next handler, or the dispatch ends and the serial number is compared. -/
def World.ret (name : ε → ν) (w : World ε ν) (a : Activation ε) (outcome : Outcome) : World ε ν :=
  let w' := { w with active := w.active.filter fun b => b.no ≠ a.no }
  let after := if a.serial ≠ w.dispatcher.serial then w' else pollLoop name a.no a.serial a.left w'
  match outcome with
  | .cont =>
    match (w.dispatcher.table (name a.event)).next a.handler with
    | some h => { w' with active := { a with handler := h } :: w'.active }
    | none => after
  | .stop => after
  | .exception => after
  | .foreign => w'

/-- What a thread can do. -/
inductive Act (ε ν : Type) where
  | addHandler (name : ν) (order : ℤ)
  | post (event : ε)
  | poll
  | ret (no : ℕ) (outcome : Outcome)

/-- One step.  A handler can return only where its activation is suspended. -/
def World.step [DecidableEq ν] (name : ε → ν) (w : World ε ν) : Act ε ν → Option (World ε ν)
  | .addHandler n order => some (w.addHandler n order)
  | .post event => some (w.post event)
  | .poll => some (w.poll name)
  | .ret no outcome => (w.active.find? fun a => a.no = no).map fun a => w.ret name a outcome

/-! ### The invariant -/

/-- What is known of a suspended activation.  The newest one still owns the
front of the queue: the events it has left to dispatch are those that were
queued when it began, `hi` being the number of events posted by then. -/
def Suspended (w : World ε ν) (a : Activation ε) : Prop :=
  a.serial = UInt32.ofNat (a.no + 1) ∧ ∃ lo hi : ℕ, w.begun[a.no]? = some (lo, hi) ∧
    (a.no + 1 = w.begun.length →
      lo ≤ w.started.length ∧ w.started.length + a.left = hi ∧ hi ≤ w.posted.length)

/-- The invariant of the dispatcher, as long as `serial` has not wrapped. -/
structure EventInv (w : World ε ν) : Prop where
  safe : w.crashed = false
  fifo : w.posted = w.started.map Prod.snd ++ w.dispatcher.queue
  serial : w.dispatcher.serial = UInt32.ofNat w.begun.length
  window : ∀ n k e, w.started[n]? = some (k, e) →
    ∃ lo hi : ℕ, w.begun[k]? = some (lo, hi) ∧ lo ≤ n ∧ n < hi
  nodup : (w.active.map Activation.no).Nodup
  suspended : ∀ a ∈ w.active, Suspended w a

theorem EventInv.initial : EventInv (World.initial : World ε ν) where
  safe := rfl
  fifo := rfl
  serial := rfl
  window := by simp [World.initial]
  nodup := nodup_nil
  suspended := by simp [World.initial]

variable {w v : World ε ν} {a : Activation ε} {no : ℕ} {name : ε → ν} {serial : UInt32}

theorem EventInv.length_posted (h : EventInv w) :
    w.posted.length = w.started.length + w.dispatcher.queue.length := by
  rw [h.fifo, length_append, length_map]

theorem EventInv.no_lt (h : EventInv w) (ha : a ∈ w.active) : a.no < w.begun.length := by
  obtain ⟨-, lo, hi, hb, -⟩ := h.suspended a ha
  exact (List.getElem?_eq_some_iff.1 hb).1

/-- The newest activation `no` can go on: it is not among the suspended ones and
has the next `left` events of the queue to dispatch. -/
structure CanLoop (w : World ε ν) (no left : ℕ) : Prop where
  newest : no + 1 = w.begun.length
  fresh : ∀ a ∈ w.active, a.no ≠ no
  window : ∃ lo hi : ℕ, w.begun[no]? = some (lo, hi) ∧ lo ≤ w.started.length ∧
    w.started.length + left = hi ∧ hi ≤ w.posted.length

/-- Popping the next event keeps the invariant: the event lies in the window of
the activation, and no older activation is promised anything. -/
theorem EventInv.pop (h : EventInv w) {left : ℕ} (hl : CanLoop w no (left + 1))
    {event : ε} {queue : List ε} (hq : w.dispatcher.queue = event :: queue) :
    EventInv { w with dispatcher.queue := queue, started := w.started ++ [(no, event)] } ∧
      CanLoop { w with dispatcher.queue := queue, started := w.started ++ [(no, event)] }
        no left := by
  obtain ⟨lo, hi, hb, hlo, hhi, hle⟩ := hl.window
  refine ⟨⟨h.safe, ?_, h.serial, ?_, h.nodup, ?_⟩, hl.newest, hl.fresh, lo, hi, hb, ?_, ?_, hle⟩
  · simp only [h.fifo, hq, map_append, append_assoc]
    rfl
  · intro n k e hn
    rw [List.getElem?_append] at hn
    split at hn
    · exact h.window n k e hn
    -- the new entry is the last one, at index `w.started.length`
    obtain ⟨hlt, hn⟩ := List.getElem?_eq_some_iff.1 hn
    simp only [length_singleton] at hlt
    simp only [getElem_singleton, Prod.mk.injEq] at hn
    obtain ⟨rfl, -⟩ := hn
    exact ⟨lo, hi, hb, by omega, by omega⟩
  · intro a ha
    obtain ⟨hs, lo', hi', hb', -⟩ := h.suspended a ha
    refine ⟨hs, lo', hi', hb', fun hnew => ?_⟩
    exact absurd (Nat.succ.inj (hnew.trans hl.newest.symm)) (hl.fresh a ha)
  all_goals simp only [length_append, length_singleton]; omega

/-- Entering a handler suspends an activation where it stands. -/
theorem EventInv.suspend (h : EventInv w)
    (hs : Suspended w a) (hfresh : ∀ b ∈ w.active, b.no ≠ a.no) :
    EventInv { w with active := a :: w.active } where
  safe := h.safe
  fifo := h.fifo
  serial := h.serial
  window := h.window
  nodup := by
    rw [map_cons, nodup_cons]
    refine ⟨fun hm => ?_, h.nodup⟩
    obtain ⟨b, hb, hab⟩ := mem_map.1 hm
    exact hfresh b hb hab
  suspended := by
    intro b hb
    rcases mem_cons.1 hb with rfl | hb
    · exact hs
    · exact h.suspended b hb

theorem CanLoop.suspended (hl : CanLoop w a.no a.left)
    (hs : a.serial = UInt32.ofNat (a.no + 1)) : Suspended w a := by
  obtain ⟨lo, hi, hbeg, hlo, hhi, hle⟩ := hl.window
  exact ⟨hs, lo, hi, hbeg, fun _ => ⟨hlo, hhi, hle⟩⟩

/-- **The loop of `poll()` keeps the invariant**, from wherever the newest
activation stands. -/
theorem EventInv.pollLoop (hs : serial = UInt32.ofNat (no + 1)) {left : ℕ} (h : EventInv w)
    (hl : CanLoop w no left) : EventInv (w.pollLoop name no serial left) := by
  induction left generalizing w with
  | zero => exact h
  | succ left ih =>
    obtain ⟨lo, hi, -, -, hhi, hle⟩ := hl.window
    have hlen := h.length_posted
    cases hq : w.dispatcher.queue with
    | nil => rw [hq, length_nil] at hlen; omega
    | cons event queue =>
      obtain ⟨h', hl'⟩ := h.pop hl hq
      simp only [World.pollLoop, hq]
      cases (w.dispatcher.table (name event)).head? with
      | none =>
        dsimp only
        split
        · exact h'
        · exact ih h' hl'
      | some handler =>
        exact h'.suspend
          (CanLoop.suspended (a := ⟨no, serial, left, event, handler.2⟩) hl' hs) hl'.fresh

theorem EventInv.poll (h : EventInv w) : EventInv (w.poll name) := by
  have hserial : w.dispatcher.serial + 1 = UInt32.ofNat (w.begun.length + 1) := by
    rw [h.serial, UInt32.ofNat_add]; rfl
  refine EventInv.pollLoop hserial (w := { w with
    dispatcher.serial := w.dispatcher.serial + 1,
    begun := w.begun ++ [(w.started.length, w.posted.length)] }) ?_ ?_
  · refine ⟨h.safe, h.fifo, ?_, ?_, h.nodup, ?_⟩
    · simpa using hserial
    · intro n k e hn
      obtain ⟨lo, hi, hb, hlo, hhi⟩ := h.window n k e hn
      exact ⟨lo, hi, by rw [List.getElem?_append_left (List.getElem?_eq_some_iff.1 hb).1, hb],
        hlo, hhi⟩
    · intro a ha
      have hlt := h.no_lt ha
      obtain ⟨hs, lo, hi, hb, -⟩ := h.suspended a ha
      refine ⟨hs, lo, hi, by rw [List.getElem?_append_left hlt, hb], fun hnew => ?_⟩
      simp only [length_append, length_singleton] at hnew
      omega
  · refine ⟨by simp, fun a ha => (h.no_lt ha).ne, w.started.length, w.posted.length, ?_, le_rfl,
      h.length_posted.symm, le_rfl⟩
    simp

/-- Dropping an activation, as when its `poll()` returns, keeps the invariant. -/
theorem EventInv.drop (h : EventInv w) (p : Activation ε → Bool) :
    EventInv { w with active := w.active.filter p } where
  safe := h.safe
  fifo := h.fifo
  serial := h.serial
  window := h.window
  nodup := h.nodup.sublist (filter_sublist.map _)
  suspended := fun a ha => h.suspended a (mem_of_mem_filter ha)

/-- Before `serial` wraps, an activation whose serial number is the current one is
the newest. -/
theorem EventInv.newest (h : EventInv w) (hp : w.begun.length < 2 ^ 32) (ha : a ∈ w.active)
    (hs : a.serial = w.dispatcher.serial) : a.no + 1 = w.begun.length := by
  have hlt := h.no_lt ha
  rw [(h.suspended a ha).1, h.serial] at hs
  have := congrArg UInt32.toNat hs
  rwa [UInt32.toNat_ofNat_of_lt' (by simp only [UInt32.size]; omega),
    UInt32.toNat_ofNat_of_lt' (by omega)] at this

theorem EventInv.ret (h : EventInv w) (hp : w.begun.length < 2 ^ 32) (ha : a ∈ w.active)
    (outcome : Outcome) : EventInv (w.ret name a outcome) := by
  have hdrop := h.drop fun b => b.no ≠ a.no
  have hfresh : ∀ b ∈ w.active.filter (fun b => b.no ≠ a.no), b.no ≠ a.no := by
    simp
  have hafter : EventInv (if a.serial ≠ w.dispatcher.serial
      then { w with active := w.active.filter fun b => b.no ≠ a.no }
      else World.pollLoop name a.no a.serial a.left
        { w with active := w.active.filter fun b => b.no ≠ a.no }) := by
    split_ifs with hne
    · exact hdrop
    · have hnew := h.newest hp ha (not_not.1 hne)
      obtain ⟨hs, lo, hi, hb, hwin⟩ := h.suspended a ha
      exact hdrop.pollLoop hs ⟨hnew, hfresh, lo, hi, hb, hwin hnew⟩
  cases outcome with
  | cont =>
    simp only [World.ret]
    split
    · exact hdrop.suspend (a := { a with handler := _ }) (h.suspended a ha) hfresh
    · exact hafter
  | stop | exception => exact hafter
  | foreign => exact hdrop

/-! ### What a run keeps -/

/-- The polls begun by an action. -/
def Act.polls : Act ε ν → ℕ
  | .poll => 1
  | _ => 0

@[simp] theorem World.pollLoop_begun (left : ℕ)
    (w : World ε ν) : (w.pollLoop name no serial left).begun = w.begun := by
  fun_induction World.pollLoop name no serial left w with
  | case1 | case2 | case3 | case5 => rfl
  | case4 _ _ _ _ _ _ _ _ ih => exact ih

variable [DecidableEq ν]

theorem World.step_begun {a : Act ε ν}
    (h : w.step name a = some v) : v.begun.length = w.begun.length + a.polls := by
  cases a with
  | addHandler | post => obtain rfl := some.inj h; rfl
  | poll => obtain rfl := some.inj h; simp [World.poll, Act.polls]
  | ret no outcome =>
    obtain ⟨b, -, rfl⟩ := map_eq_some_iff.1 h
    cases outcome <;> simp only [World.ret] <;> repeat' split
    all_goals simp [Act.polls]

/-- **One step keeps the invariant**, up to 2^32 polls. -/
theorem EventInv.step {a : Act ε ν} (h : EventInv w)
    (hp : w.begun.length < 2 ^ 32) (hstep : w.step name a = some v) : EventInv v := by
  cases a with
  | addHandler n order =>
    cases hstep
    exact { h with }
  | post event =>
    cases hstep
    refine ⟨h.safe, ?_, h.serial, h.window, h.nodup, fun a ha => ?_⟩
    · simp only [World.post, h.fifo, append_assoc]
    · obtain ⟨hs, lo, hi, hb, hwin⟩ := h.suspended a ha
      refine ⟨hs, lo, hi, hb, fun hnew => ?_⟩
      obtain ⟨hlo, hhi, hle⟩ := hwin hnew
      exact ⟨hlo, hhi, by simp only [World.post, length_append]; omega⟩
  | poll => obtain rfl := some.inj hstep; exact h.poll
  | ret no outcome =>
    obtain ⟨b, hb, rfl⟩ := map_eq_some_iff.1 hstep
    exact h.ret hp (mem_of_find?_eq_some hb) outcome

theorem World.run_begun {as : List (Act ε ν)} (h : Lib.run (World.step name) w as = some v) :
    v.begun.length = w.begun.length + (as.map Act.polls).sum := by
  induction as generalizing w with
  | nil => obtain rfl := some.inj h; simp
  | cons a as ih =>
    obtain ⟨u, hu, h⟩ := Lib.run_cons_eq_some.1 h
    rw [ih h, World.step_begun hu, map_cons, sum_cons, Nat.add_assoc]

/-- What the dispatcher promises of a state.  `started` is the list of dispatches
in the order they started, so its `n`-th entry being of the `n`-th event posted
says that events are dispatched in posting order, each at most once.  Event `n` was
queued when poll `k` began if `lo ≤ n < hi`, with `lo` dispatches started and `hi`
events posted by then. -/
structure ExactlyOnceFifo (w : World ε ν) : Prop where
  no_empty_pop : w.crashed = false
  in_order : ∀ (n : ℕ) (k : ℕ) (e : ε), w.started[n]? = some (k, e) → w.posted[n]? = some e
  queued_at_start : ∀ n k e, w.started[n]? = some (k, e) →
    ∃ lo hi : ℕ, w.begun[k]? = some (lo, hi) ∧ lo ≤ n ∧ n < hi
  pending : w.posted = w.started.map Prod.snd ++ w.dispatcher.queue
  drained : w.dispatcher.queue = [] → w.active = [] → w.started.map Prod.snd = w.posted

/-- **Events are dispatched exactly once, in posting order, whatever blocks.**  Any
interleaving of posts, polls and handler returns with fewer than 2^32 polls. -/
theorem event_dispatch_exactly_once (name : ε → ν) (as : List (Act ε ν)) (w : World ε ν)
    (hrun : Lib.run (World.step name) World.initial as = some w)
    (hpolls : (as.map Act.polls).sum < 2 ^ 32) : ExactlyOnceFifo w := by
  have hinv : w.begun.length < 2 ^ 32 → EventInv w := by
    refine Lib.run_invariant (I := fun w => w.begun.length < 2 ^ 32 → EventInv w) ?_
      (fun _ => EventInv.initial) hrun
    intro u a v hu hstep hv
    have hlen := World.step_begun hstep
    exact (hu (by omega)).step (by omega) hstep
  have h := hinv (by rw [World.run_begun hrun]; simpa [World.initial] using hpolls)
  refine ⟨h.safe, fun n k e hn => ?_, h.window, h.fifo, fun hq _ => ?_⟩
  · have hlt := (List.getElem?_eq_some_iff.1 hn).1
    rw [h.fifo, List.getElem?_append_left (by simpa using hlt), List.getElem?_map, hn]
    rfl
  · rw [h.fifo, hq, append_nil]

/-- Two events and one handler, which blocks on each: a second `poll()` runs while
the first one is suspended. -/
def nestedPolls : List (Act ℕ Unit) :=
  [.addHandler () 0, .post 7, .post 8, .poll, .poll, .ret 0 .cont, .ret 1 .stop]

/-- The hypotheses of `event_dispatch_exactly_once` are satisfiable: in
`nestedPolls` the second event is dispatched by the second poll, and the first
poll stops without popping again. -/
theorem event_dispatch_exactly_once_nestedPolls :
    ∃ w, Lib.run (World.step fun _ => ()) World.initial nestedPolls = some w ∧
      w.started = [(0, 7), (1, 8)] ∧ ExactlyOnceFifo w :=
  ⟨_, rfl, rfl, event_dispatch_exactly_once (fun _ => ()) nestedPolls _ rfl (by decide)⟩

end NoxClassic.Dispatch
