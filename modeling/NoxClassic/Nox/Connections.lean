/-
# The table of connections and their lifetime

`Conn`, `register_conn`, `register_switch`, `register_mgmt` and
`close_openflow_connection` (`src/builtin/nox.cc`).  A connection whose handshake is
done becomes a `Conn`, which the poll loop polls and `connection_map` finds by its
datapath id.  It is closed when a read fails, on request, or by a newer connection
that announces the same id; closing takes it out of the map and of the poll loop and
posts that it left.  A `poll()` may be suspended in a handler while others of the same
connection start, so a connection that is closed is deleted by the last of them to
return, or at once when there is none.

A management channel is registered with its management id in the place of the
datapath id, and `close` tells the two kinds apart by comparing the ids.  Both are
what the peer announced, so a switch that announces its datapath id as its management
id leaves as a management channel (`joined_twice`).

`register_switch` clears the flow table before it posts that the switch joined.  The
command is dispatched to handlers, and these may request that connections are closed:
`closes` lists these requests, in order.

Deleting is counted, and the use of a deleted connection clears `ok`, as a failed
assertion does.  The maps of managers, `mgmt_map` and `swm_map`, are left out: they
hold no connection, and nothing here reads them.
-/

import NoxClassic.Lib.Run
import Mathlib.Data.Finset.Basic
import Mathlib.Data.List.AList

namespace NoxClassic.Nox

open Function List Option AList Bool Lib

/-- Which function registered a connection. -/
inductive Kind where
  | switch
  | mgmt
  deriving DecidableEq

/-- `Conn` with the ids of its `oconn`. -/
structure Conn where
  dpId : ℕ
  mgmtId : ℕ
  kind : Kind
  closing : Bool
  pollCnt : ℕ
  deletions : ℕ
  deriving DecidableEq

/-- The events that are posted. -/
inductive Event where
  | datapathJoin (dpId : ℕ)
  | datapathLeave (dpId : ℕ)
  | switchMgrJoin (mgmtId : ℕ)
  | switchMgrLeave (mgmtId : ℕ)
  deriving DecidableEq

/-- The event that closing a connection posts. -/
def Conn.leave (k : Conn) : Event :=
  if k.dpId = k.mgmtId then .switchMgrLeave k.mgmtId else .datapathLeave k.dpId

/-- The connections, numbered as they are created, with the activations of `poll()` that have not
returned and the events that were posted, the newest first. -/
structure State where
  conn : ℕ → Option Conn
  next : ℕ
  connectionMap : AList fun _ : ℕ => ℕ
  pollables : Finset ℕ
  running : List ℕ
  events : List Event
  ok : Bool

namespace State

/-- No connection. -/
def init : State := ⟨fun _ => none, 0, ∅, ∅, [], [], true⟩

/-- A new value of a connection. -/
def setConn (s : State) (c : ℕ) (k : Conn) : State :=
  { s with conn := Function.update s.conn c (some k) }

def post (s : State) (e : Event) : State := { s with events := e :: s.events }

def assert (s : State) (b : Bool) : State := { s with ok := s.ok && b }

/-- `delete this`; the destructor calls `close()`, which does nothing any more. -/
def delete (s : State) (c : ℕ) (k : Conn) : State :=
  s.setConn c { k with deletions := k.deletions + 1 }

/-- `Conn::close`. -/
def close (s : State) (c : ℕ) : State :=
  match s.conn c with
  | none => s.assert false
  | some k =>
    let s := s.assert (k.deletions = 0)
    if k.closing then s
    else
      let k := { k with closing := true }
      let s := (s.setConn c k).post k.leave
      let s := { s with connectionMap := s.connectionMap.erase k.dpId }
      -- `main_loop->remove_pollable(this)`
      let s := { s.assert (c ∈ s.pollables) with pollables := s.pollables.erase c }
      if k.pollCnt = 0 then s.delete c k else s

/-- `register_conn`, with the constructor of `Conn`. -/
def registerConn (s : State) (dpId mgmtId : ℕ) (kind : Kind) : State :=
  let c := s.next
  let s := { s.setConn c ⟨dpId, mgmtId, kind, false, 0, 0⟩ with
    next := s.next + 1, pollables := insert c s.pollables }
  match s.connectionMap.lookup dpId with
  | none => { s with connectionMap := s.connectionMap.insert dpId c }
  | some old =>
    let s := s.close old
    { s.assert (s.connectionMap.lookup dpId).isNone with
      connectionMap := s.connectionMap.insert dpId c }

/-- `close_openflow_connection`. -/
def closeOpenflowConnection (s : State) (dpId : ℕ) : State :=
  match s.connectionMap.lookup dpId with
  | none => s
  | some c => s.close c

/-- `register_switch` of an approved switch. -/
def registerSwitch (s : State) (dpId mgmtId : ℕ) (closes : List ℕ) : State :=
  (closes.foldl closeOpenflowConnection (s.registerConn dpId mgmtId .switch)).post
    (.datapathJoin dpId)

/-- `register_mgmt` of an approved management channel. -/
def registerMgmt (s : State) (mgmtId : ℕ) : State :=
  (s.registerConn mgmtId mgmtId .mgmt).post (.switchMgrJoin mgmtId)

/-- The start of `Conn::poll`. -/
def poll (s : State) (c : ℕ) : State :=
  match s.conn c with
  | none => s.assert false
  | some k =>
    let s := (s.assert (k.deletions = 0)).setConn c { k with pollCnt := k.pollCnt + 1 }
    { s with running := c :: s.running }

/-- The end of `Conn::poll`. -/
def ret (s : State) (c : ℕ) : State :=
  match s.conn c with
  | none => s.assert false
  | some k =>
    let s := s.assert (k.deletions = 0)
    let k := { k with pollCnt := k.pollCnt - 1 }
    let s := { s.setConn c k with running := s.running.erase c }
    if k.pollCnt = 0 ∧ k.closing then s.delete c k else s

end State

/-- What happens: registrations; a poll of a connection of the poll loop; in an activation of
`poll()`, an error of the connection, and its return; and requests to close. -/
inductive Act where
  | registerSwitch (dpId mgmtId : ℕ) (closes : List ℕ)
  | registerMgmt (mgmtId : ℕ)
  | poll (c : ℕ)
  | recvError (c : ℕ)
  | ret (c : ℕ)
  | closeRequest (dpId : ℕ)

/-- One step; an id of zero is not registered. -/
def State.step (s : State) : Act → Option State
  | .registerSwitch dpId mgmtId closes =>
    if dpId = 0 then none else some (s.registerSwitch dpId mgmtId closes)
  | .registerMgmt mgmtId => if mgmtId = 0 then none else some (s.registerMgmt mgmtId)
  | .poll c => if c ∈ s.pollables then some (s.poll c) else none
  | .recvError c => if c ∈ s.running then some (s.close c) else none
  | .ret c => if c ∈ s.running then some (s.ret c) else none
  | .closeRequest dpId => some (s.closeOpenflowConnection dpId)

/-! ### Joins and leaves -/

/-- The newest event about a datapath is a join. -/
def lastIsJoin (d : ℕ) : List Event → Bool
  | [] => false
  | .datapathJoin e :: es => if e = d then true else lastIsJoin d es
  | .datapathLeave e :: es => if e = d then false else lastIsJoin d es
  | _ :: es => lastIsJoin d es

/-- The joins and leaves of a datapath alternate, beginning with a join. -/
def Alternate (d : ℕ) : List Event → Prop
  | [] => True
  | .datapathJoin e :: es => Alternate d es ∧ (e = d → lastIsJoin d es = false)
  | .datapathLeave e :: es => Alternate d es ∧ (e = d → lastIsJoin d es = true)
  | _ :: es => Alternate d es

/-- A switch with this id is registered and is not closing. -/
def Present (conn : ℕ → Option Conn) (d : ℕ) : Prop :=
  ∃ c k, conn c = some k ∧ k.kind = .switch ∧ k.dpId = d ∧ k.closing = false

/-! ### The invariant -/

/-- The state of one connection: a switch has an id other than its management id and a management
channel has one id, the count of its polls is right, and it was deleted once if it is closing and
no poll of it runs, and otherwise not. -/
structure ConnInv (running : List ℕ) (c : ℕ) (k : Conn) : Prop where
  kind : k.kind = .mgmt ↔ k.dpId = k.mgmtId
  count : k.pollCnt = running.count c
  deletions : k.deletions = if k.closing = true ∧ c ∉ running then 1 else 0

/-- The invariant; `pending` is the switch whose join is still to be posted. -/
structure Inv (pending : Option ℕ) (s : State) : Prop where
  ok : s.ok = true
  fresh : ∀ c, s.next ≤ c → s.conn c = none
  running : ∀ c ∈ s.running, s.conn c ≠ none
  conn : ∀ c k, s.conn c = some k → ConnInv s.running c k
  map : ∀ d c, s.connectionMap.lookup d = some c ↔
    ∃ k, s.conn c = some k ∧ k.dpId = d ∧ k.closing = false
  pollables : ∀ c, c ∈ s.pollables ↔ ∃ k, s.conn c = some k ∧ k.closing = false
  present : ∀ d, lastIsJoin d s.events = true ↔ Present s.conn d ∧ pending ≠ some d
  alternate : ∀ d, Alternate d s.events

theorem inv_init : Inv none State.init := by
  refine ⟨rfl, fun _ _ => rfl, fun c hc => absurd hc not_mem_nil, fun c k hk => ?_,
    fun d c => ?_, fun c => ?_, fun d => ?_, fun _ => True.intro⟩
  · nomatch hk
  · refine iff_of_false ?_ ?_
    · exact fun h => some_ne_none c (h.symm.trans (lookup_empty d))
    · rintro ⟨k, hk, -⟩
      nomatch hk
  · refine iff_of_false (Finset.notMem_empty c) ?_
    rintro ⟨k, hk, -⟩
    nomatch hk
  · refine iff_of_false false_ne_true ?_
    rintro ⟨⟨c, k, hk, -⟩, -⟩
    nomatch hk

variable {pending : Option ℕ} {s s' : State} {c d : ℕ} {k : Conn}

variable {running : List ℕ} {dpId mgmtId : ℕ}

/-- An open connection was not deleted. -/
theorem ConnInv.deletions_of_open (h : ConnInv running c k)
    (hopen : k.closing = false) : k.deletions = 0 := by
  rw [h.deletions, if_neg]
  rintro ⟨hclosing, -⟩
  exact false_ne_true (hopen.symm.trans hclosing)

/-- A connection with a running poll was not deleted. -/
theorem ConnInv.deletions_of_running (h : ConnInv running c k)
    (hrun : c ∈ running) : k.deletions = 0 := by
  rw [h.deletions, if_neg fun hn => hn.2 hrun]

/-- Two open connections with the same id are one. -/
theorem Inv.unique (h : Inv pending s) {c1 c2 : ℕ} {k1 k2 : Conn} (h1 : s.conn c1 = some k1)
    (h2 : s.conn c2 = some k2) (hopen1 : k1.closing = false) (hopen2 : k2.closing = false)
    (hid : k1.dpId = k2.dpId) : c1 = c2 := by
  have hl1 := (h.map k1.dpId c1).2 ⟨k1, h1, rfl, hopen1⟩
  have hl2 := (h.map k2.dpId c2).2 ⟨k2, h2, rfl, hopen2⟩
  rw [hid, hl2] at hl1
  exact (some.inj hl1).symm

/-! ### Closing -/

theorem State.assert_true (s : State) : s.assert true = s := by
  unfold State.assert
  rw [Bool.and_true]

/-- A connection after it was closed. -/
def Conn.closed (k : Conn) : Conn :=
  { k with closing := true, deletions := if k.pollCnt = 0 then 1 else 0 }

theorem State.close_of_open (hk : s.conn c = some k) (hdel : k.deletions = 0)
    (hopen : k.closing = false) (hpoll : c ∈ s.pollables) :
    s.close c = { s with
      conn := update s.conn c (some k.closed)
      connectionMap := s.connectionMap.erase k.dpId
      pollables := s.pollables.erase c
      events := k.leave :: s.events } := by
  unfold State.close
  rw [hk]
  dsimp only
  rw [decide_eq_true hdel, s.assert_true, if_neg (by rw [hopen]; exact Bool.false_ne_true)]
  have hleave : ({ k with closing := true } : Conn).leave = k.leave := rfl
  unfold Conn.closed State.delete State.setConn State.post State.assert
  rw [decide_eq_true hpoll, Bool.and_true, hleave, hdel]
  split_ifs with hcnt
  · rw [update_idem]
  · rfl

/-- Events of the other kind say nothing about datapaths. -/
theorem leave_of_mgmt (h : k.dpId = k.mgmtId) (d : ℕ) (es : List Event) :
    lastIsJoin d (k.leave :: es) = lastIsJoin d es ∧
      (Alternate d (k.leave :: es) ↔ Alternate d es) := by
  unfold Conn.leave
  rw [if_pos h]
  exact ⟨rfl, Iff.rfl⟩

theorem leave_of_switch (h : k.dpId ≠ k.mgmtId) (d : ℕ) (es : List Event) :
    lastIsJoin d (k.leave :: es) = (if k.dpId = d then false else lastIsJoin d es) ∧
      (Alternate d (k.leave :: es) ↔ Alternate d es ∧ (k.dpId = d → lastIsJoin d es = true)) := by
  unfold Conn.leave
  rw [if_neg h]
  exact ⟨rfl, Iff.rfl⟩

/-- What is in the table after a connection was set. -/
theorem exists_update {conn : ℕ → Option Conn} {P : Conn → Prop} {c' : ℕ} :
    (∃ k', update conn c (some k) c' = some k' ∧ P k') ↔
      c' = c ∧ P k ∨ c' ≠ c ∧ ∃ k', conn c' = some k' ∧ P k' := by
  by_cases hc : c' = c <;> simp [hc]

section

variable (h : Inv pending s)
include h

theorem Inv.lt_next (hk : s.conn c = some k) : c < s.next := by
  by_contra hle
  exact some_ne_none k (hk.symm.trans (h.fresh c (Nat.le_of_not_lt hle)))

/-- What holds of each connection after one was set and the polls of others were left alone. -/
theorem Inv.set {next : ℕ} (hc : c < next) (hnext : s.next ≤ next)
    (hk : ConnInv running c k) (hcount : ∀ c' ≠ c, running.count c' = s.running.count c') :
    (∀ c', next ≤ c' → update s.conn c (some k) c' = none) ∧
    (∀ c' ∈ running, update s.conn c (some k) c' ≠ none) ∧
    ∀ c' k', update s.conn c (some k) c' = some k' → ConnInv running c' k' := by
  have hmem : ∀ c' ≠ c, c' ∈ running ↔ c' ∈ s.running := by
    intro c' hc
    rw [← count_pos_iff, ← count_pos_iff, hcount c' hc]
  refine ⟨fun c' hc' => ?_, fun c' hc' => ?_, fun c' k' hk' => ?_⟩
  · rw [update_of_ne (by omega)]
    exact h.fresh c' (by omega)
  · rw [update_apply]
    split_ifs with hc
    · exact some_ne_none k
    · exact h.running c' ((hmem c' hc).1 hc')
  · rw [update_apply] at hk'
    split_ifs at hk' with hc
    · exact hc ▸ some.inj hk' ▸ hk
    · have hold := h.conn c' k' hk'
      refine ⟨hold.kind, hold.count.trans (hcount c' hc).symm, ?_⟩
      rw [hold.deletions]
      exact if_congr (and_congr_right fun _ => not_congr (hmem c' hc).symm) rfl rfl

/-- Who is present after a connection was closed. -/
theorem Inv.present_closed (hk : s.conn c = some k)
    (hopen : k.closing = false) : Present (update s.conn c (some k.closed)) d ↔
      Present s.conn d ∧ (k.kind = .switch → k.dpId ≠ d) := by
  constructor
  · rintro ⟨c', hc'⟩
    rcases exists_update.1 hc' with ⟨-, -, -, hclosed⟩ | ⟨hne, k', hk', hsw, hd, hopen'⟩
    · nomatch hclosed
    · exact ⟨⟨c', k', hk', hsw, hd, hopen'⟩, fun _ hid =>
        hne (h.unique hk' hk hopen' hopen (hd.trans hid.symm))⟩
  · rintro ⟨⟨c', k', hk', hsw, hd, hopen'⟩, hother⟩
    refine ⟨c', exists_update.2 (.inr ⟨?_, k', hk', hsw, hd, hopen'⟩)⟩
    rintro rfl
    obtain rfl := some.inj (hk.symm.trans hk')
    exact hother hsw hd

/-- Closing an open connection keeps the invariant. -/
theorem Inv.close_open (hk : s.conn c = some k) (hopen : k.closing = false)
    (hpend : k.kind = .switch → pending ≠ some k.dpId) : Inv pending (s.close c) := by
  have hkinv := h.conn c k hk
  have hlookup : s.connectionMap.lookup k.dpId = some c := (h.map k.dpId c).2 ⟨k, hk, rfl, hopen⟩
  have hclosed : ConnInv s.running c k.closed := by
    refine ⟨hkinv.kind, hkinv.count, if_congr ?_ rfl rfl⟩
    rw [hkinv.count, count_eq_zero]
    exact ⟨fun hn => ⟨rfl, hn⟩, And.right⟩
  have hswitch (hid : k.dpId ≠ k.mgmtId) : k.kind = .switch := by
    cases hkd : k.kind with
    | switch => rfl
    | mgmt => exact absurd (hkinv.kind.1 hkd) hid
  obtain ⟨hfresh, hrunning, hconn⟩ := h.set (h.lt_next hk) le_rfl hclosed fun _ _ => rfl
  rw [State.close_of_open hk (hkinv.deletions_of_open hopen) hopen
    ((h.pollables c).2 ⟨k, hk, hopen⟩)]
  refine ⟨h.ok, hfresh, hrunning, hconn, fun d c' => ?_, fun c' => ?_, fun d => ?_, fun d => ?_⟩
  · refine Iff.trans ?_ (exists_update.trans (or_iff_right fun hn => nomatch hn.2.2)).symm
    rw [← h.map d c']
    by_cases hd : d = k.dpId
    · rw [hd, lookup_erase, hlookup]
      exact iff_of_false nofun fun hn => hn.1 (some.inj hn.2).symm
    · rw [lookup_erase_ne hd]
      refine (and_iff_right_of_imp ?_).symm
      rintro hl rfl
      obtain ⟨k', hk', hid, -⟩ := (h.map d c').1 hl
      exact hd (some.inj (hk.symm.trans hk') ▸ hid.symm)
  · refine Iff.trans ?_ (exists_update.trans (or_iff_right fun hn => nomatch hn.2)).symm
    rw [← h.pollables c']
    exact Finset.mem_erase
  · show lastIsJoin d (k.leave :: s.events) = true ↔
      Present (update s.conn c (some k.closed)) d ∧ pending ≠ some d
    rw [h.present_closed hk hopen]
    by_cases hid : k.dpId = k.mgmtId
    · have hmgmt := hkinv.kind.2 hid
      rw [(leave_of_mgmt hid d s.events).1, h.present d]
      exact and_congr_left fun _ => (and_iff_left fun hsw => nomatch hsw.symm.trans hmgmt).symm
    · rw [(leave_of_switch hid d s.events).1]
      split
      · next hd => exact iff_of_false false_ne_true fun hn => hn.1.2 (hswitch hid) hd
      · next hd =>
        rw [h.present d]
        exact and_congr_left fun _ => (and_iff_left fun _ => hd).symm
  · by_cases hid : k.dpId = k.mgmtId
    · exact (leave_of_mgmt hid d s.events).2.2 (h.alternate d)
    · refine (leave_of_switch hid d s.events).2.2 ⟨h.alternate d, ?_⟩
      rintro rfl
      exact (h.present _).2 ⟨⟨c, k, hk, hswitch hid, rfl, hopen⟩, hpend (hswitch hid)⟩

/-- Closing keeps the invariant. -/
theorem Inv.close (hk : s.conn c = some k) (hdel : k.deletions = 0)
    (hpend : k.kind = .switch → pending ≠ some k.dpId) : Inv pending (s.close c) := by
  cases hopen : k.closing with
  | false => exact h.close_open hk hopen hpend
  | true =>
    unfold State.close
    rw [hk]
    dsimp only
    rwa [decide_eq_true hdel, s.assert_true, if_pos hopen]

/-- A request to close keeps the invariant, unless it is for the switch that is joining. -/
theorem Inv.closeOpenflowConnection (hpend : pending ≠ some d) :
    Inv pending (s.closeOpenflowConnection d) := by
  unfold State.closeOpenflowConnection
  cases hl : s.connectionMap.lookup d with
  | none => exact h
  | some c =>
    obtain ⟨k, hk, hid, hopen⟩ := (h.map d c).1 hl
    exact h.close_open hk hopen fun _ => hid ▸ hpend

end

/-! ### Registering -/

/-- The state with one more connection, of an id that the map does not have. -/
def State.added (s : State) (dpId mgmtId : ℕ) (kind : Kind) : State :=
  { s with
    conn := Function.update s.conn s.next (some ⟨dpId, mgmtId, kind, false, 0, 0⟩)
    next := s.next + 1
    connectionMap := s.connectionMap.insert dpId s.next
    pollables := insert s.next s.pollables }

/-- The connection that the map has under the id is closed first. -/
theorem Inv.registerConn_eq (h : Inv pending s) (dpId mgmtId : ℕ) (kind : Kind) :
    s.registerConn dpId mgmtId kind = match s.connectionMap.lookup dpId with
      | none => s.added dpId mgmtId kind
      | some old => (s.close old).added dpId mgmtId kind := by
  cases hl : s.connectionMap.lookup dpId with
  | none =>
    show (match s.connectionMap.lookup dpId with | none => _ | some old => _) = _
    rw [hl]
    rfl
  | some old =>
    obtain ⟨k, hk, hid, hopen⟩ := (h.map dpId old).1 hl
    have hdel := (h.conn old k hk).deletions_of_open hopen
    have hpoll := (h.pollables old).2 ⟨k, hk, hopen⟩
    have hne := (h.lt_next hk).ne
    show (match s.connectionMap.lookup dpId with | none => _ | some old => _) = _
    rw [hl]
    dsimp only
    rw [State.close_of_open hk hdel hopen hpoll,
      State.close_of_open (k := k) ((update_of_ne hne _ _).trans hk) hdel hopen
        (Finset.mem_insert_of_mem hpoll)]
    unfold State.setConn State.added State.assert
    rw [update_comm hne.symm, Finset.erase_insert_of_ne hne.symm, hid, lookup_erase]
    simp only [isNone_none, Bool.and_true]

/-- A new connection keeps the invariant; of a switch, the join is still to be posted. -/
theorem Inv.added (h : Inv none s) {kind : Kind}
    (hl : s.connectionMap.lookup dpId = none) (hkind : kind = .mgmt ↔ dpId = mgmtId) :
    Inv (if kind = .switch then some dpId else none) (s.added dpId mgmtId kind) := by
  have hnot : s.next ∉ s.running := fun hmem => h.running _ hmem (h.fresh _ le_rfl)
  obtain ⟨hfresh, hrunning, hconn⟩ := h.set s.next.lt_succ_self s.next.le_succ
    (k := ⟨dpId, mgmtId, kind, false, 0, 0⟩)
    ⟨hkind, (count_eq_zero.2 hnot).symm, (if_neg fun hn => Bool.false_ne_true hn.1).symm⟩
    fun _ _ => rfl
  refine ⟨h.ok, hfresh, hrunning, hconn, fun d c' => ?_, fun c' => ?_, fun d => ?_, h.alternate⟩
  · refine Iff.trans ?_ exists_update.symm
    rw [← h.map d c']
    show (s.connectionMap.insert dpId s.next).lookup d = some c' ↔ _
    by_cases hd : d = dpId
    · rw [hd, lookup_insert, hl]
      simp [eq_comm]
    · rw [lookup_insert_ne hd, or_iff_right fun hn => hd hn.2.1.symm]
      refine (and_iff_right_of_imp fun hl' => ?_).symm
      obtain ⟨k', hk', -⟩ := (h.map d c').1 hl'
      exact (h.lt_next hk').ne
  · refine Iff.trans ?_ exists_update.symm
    rw [← h.pollables c']
    show c' ∈ insert s.next s.pollables ↔ _
    by_cases hc : c' = s.next <;> simp [hc]
  · show lastIsJoin d s.events = true ↔ Present (update s.conn s.next _) d ∧ _
    rw [h.present d]
    constructor
    · rintro ⟨⟨c', k', hk', hsw, hd, hopen⟩, -⟩
      refine ⟨⟨c', exists_update.2 (.inr ⟨(h.lt_next hk').ne, k', hk', hsw, hd, hopen⟩)⟩,
        fun heq => ?_⟩
      -- the id was not in the map
      have hd' : dpId = d := by
        split_ifs at heq
        exact some.inj heq
      have := (h.map d c').2 ⟨k', hk', hd, hopen⟩
      rw [← hd', hl] at this
      nomatch this
    · rintro ⟨⟨c', hc'⟩, hpend⟩
      rcases exists_update.1 hc' with ⟨-, hsw, hd, -⟩ | ⟨-, hk'⟩
      · exact absurd ((if_pos hsw).trans (congrArg some hd)) hpend
      · exact ⟨⟨c', hk'⟩, nofun⟩

/-- `register_conn` keeps the invariant. -/
theorem Inv.registerConn (h : Inv none s) (kind : Kind) (hkind : kind = .mgmt ↔ dpId = mgmtId) :
    Inv (if kind = .switch then some dpId else none) (s.registerConn dpId mgmtId kind) := by
  rw [h.registerConn_eq]
  cases hl : s.connectionMap.lookup dpId with
  | none => exact h.added hl hkind
  | some old =>
    obtain ⟨k, hk, hid, hopen⟩ := (h.map dpId old).1 hl
    have hclose := h.close_open hk hopen fun _ => nofun
    refine hclose.added ?_ hkind
    rw [State.close_of_open hk ((h.conn old k hk).deletions_of_open hopen) hopen
      ((h.pollables old).2 ⟨k, hk, hopen⟩)]
    rw [hid, lookup_erase]

section

variable (h : Inv pending s)
include h

/-- Requests to close, none of them for the switch that is joining, keep the invariant. -/
theorem Inv.closes {closes : List ℕ} (hpend : ∀ d ∈ closes, pending ≠ some d) :
    Inv pending (closes.foldl State.closeOpenflowConnection s) := by
  induction closes generalizing s with
  | nil => exact h
  | cons d closes ih =>
    exact ih (h.closeOpenflowConnection (hpend d mem_cons_self))
      fun d' hd' => hpend d' (mem_cons_of_mem _ hd')

/-! ### Polling -/

/-- A change of a connection that keeps its ids and whether it is closing keeps the invariant. -/
theorem Inv.touch (hk : s.conn c = some k) (k' : Conn)
    (hdp : k'.dpId = k.dpId) (hkind : k'.kind = k.kind) (hclosing : k'.closing = k.closing)
    (hinv : ConnInv running c k') (hcount : ∀ c' ≠ c, running.count c' = s.running.count c') :
    Inv pending { s with conn := update s.conn c (some k'), running := running } := by
  have hiff : ∀ {P : Conn → Prop}, (P k' ↔ P k) → ∀ c',
      (∃ x, update s.conn c (some k') c' = some x ∧ P x) ↔ ∃ x, s.conn c' = some x ∧ P x := by
    intro P hP c'
    by_cases hc : c' = c
    · simp [hc, hk, hP]
    · simp [hc]
  obtain ⟨hfresh, hrunning, hconn⟩ := h.set (h.lt_next hk) le_rfl hinv hcount
  refine ⟨h.ok, hfresh, hrunning, hconn, fun d c' => ?_, fun c' => ?_, fun d => ?_, h.alternate⟩
  · rw [h.map d c']
    exact (hiff (P := fun x => x.dpId = d ∧ x.closing = false) (by rw [hdp, hclosing]) c').symm
  · rw [h.pollables c']
    exact (hiff (P := fun x => x.closing = false) (by rw [hclosing]) c').symm
  · rw [h.present d]
    refine and_congr_left fun _ => exists_congr fun c' => ?_
    exact (hiff (P := fun x => x.kind = .switch ∧ x.dpId = d ∧ x.closing = false)
      (by rw [hkind, hdp, hclosing]) c').symm

theorem Inv.poll (hc : c ∈ s.pollables) : Inv pending (s.poll c) := by
  obtain ⟨k, hk, hopen⟩ := (h.pollables c).1 hc
  have hkinv := h.conn c k hk
  have hdel := hkinv.deletions_of_open hopen
  unfold State.poll
  rw [hk]
  dsimp only
  rw [decide_eq_true hdel, s.assert_true]
  refine h.touch hk { k with pollCnt := k.pollCnt + 1 } rfl rfl rfl ?_ fun c' hc' =>
    count_cons_of_ne hc'.symm
  refine ⟨hkinv.kind, ?_, ?_⟩
  · rw [count_cons_self]
    exact congrArg (· + 1) hkinv.count
  · rw [if_neg fun hn => hn.2 mem_cons_self]
    exact hdel

theorem Inv.ret (hc : c ∈ s.running) : Inv pending (s.ret c) := by
  obtain ⟨k, hk⟩ := ne_none_iff_exists'.1 (h.running c hc)
  have hkinv := h.conn c k hk
  have hdel := hkinv.deletions_of_running hc
  have hcount : ∀ c' ≠ c, (s.running.erase c).count c' = s.running.count c' :=
    fun c' hc' => count_erase_of_ne hc'
  have hcnt : k.pollCnt - 1 = (s.running.erase c).count c := by
    rw [count_erase_self, hkinv.count]
  unfold State.ret State.delete State.setConn
  rw [hk]
  dsimp only
  rw [decide_eq_true hdel, s.assert_true]
  split_ifs with hlast
  · -- the last activation of a connection that was closed
    rw [update_idem]
    refine h.touch hk { k with pollCnt := k.pollCnt - 1, deletions := k.deletions + 1 }
      rfl rfl rfl ⟨hkinv.kind, hcnt, ?_⟩ hcount
    rw [if_pos ⟨hlast.2, count_eq_zero.1 (hcnt.symm.trans hlast.1)⟩, hdel]
  · refine h.touch hk { k with pollCnt := k.pollCnt - 1 } rfl rfl rfl
      ⟨hkinv.kind, hcnt, ?_⟩ hcount
    rw [if_neg fun hn => hlast ⟨hcnt.trans (count_eq_zero.2 hn.2), hn.1⟩]
    exact hdel

end

/-! ### Runs -/

/-- A switch that registers announces a management id other than its datapath id, and no handler
of the command that clears its flow table asks to close it. -/
def Plain : Act → Prop
  | .registerSwitch dpId mgmtId closes => mgmtId ≠ dpId ∧ dpId ∉ closes
  | _ => True

instance : DecidablePred Plain
  | .registerSwitch _ _ _ => inferInstanceAs (Decidable (_ ∧ _))
  | .registerMgmt _ | .poll _ | .recvError _ | .ret _ | .closeRequest _ => isTrue True.intro

theorem Inv.post_join (h : Inv (some d) s) (hpresent : Present s.conn d) :
    Inv none (s.post (.datapathJoin d)) := by
  have hlast : lastIsJoin d s.events = false := eq_false_iff.2 fun hn => ((h.present d).1 hn).2 rfl
  refine { h with present := fun d' => ?_, alternate := fun d' => ?_ }
  · show (if d = d' then true else lastIsJoin d' s.events) = true ↔ Present s.conn d' ∧ _
    split_ifs with hd
    · exact iff_of_true rfl ⟨hd ▸ hpresent, nofun⟩
    · rw [h.present d']
      exact and_congr_right fun _ => iff_of_true (fun heq => hd (some.inj heq)) nofun
  · refine ⟨h.alternate d', fun hd => ?_⟩
    exact hd ▸ hlast

/-- What stays open when others are closed. -/
theorem Inv.present_closes (h : Inv pending s) {closes : List ℕ} (hd : d ∉ closes)
    (hpend : ∀ d ∈ closes, pending ≠ some d) (hpresent : Present s.conn d) :
    Present (closes.foldl State.closeOpenflowConnection s).conn d := by
  induction closes generalizing s with
  | nil => exact hpresent
  | cons d' closes ih =>
    refine ih (h.closeOpenflowConnection (hpend d' mem_cons_self))
      (fun hmem => hd (mem_cons_of_mem _ hmem)) (fun d hd => hpend d (mem_cons_of_mem _ hd)) ?_
    unfold State.closeOpenflowConnection
    cases hl : s.connectionMap.lookup d' with
    | none => exact hpresent
    | some c =>
      obtain ⟨k, hk, hid, hopen⟩ := (h.map d' c).1 hl
      show Present (s.close c).conn d
      rw [State.close_of_open hk ((h.conn c k hk).deletions_of_open hopen) hopen
        ((h.pollables c).2 ⟨k, hk, hopen⟩)]
      refine (h.present_closed hk hopen).2 ⟨hpresent, fun _ hd' => hd ?_⟩
      exact hd'.symm.trans hid ▸ mem_cons_self

theorem Inv.registerSwitch (h : Inv none s) {closes : List ℕ} (hne : mgmtId ≠ dpId)
    (hcloses : dpId ∉ closes) : Inv none (s.registerSwitch dpId mgmtId closes) := by
  have hreg : Inv (some dpId) (s.registerConn dpId mgmtId .switch) :=
    h.registerConn .switch (iff_of_false (by decide) hne.symm)
  have hpend : ∀ d ∈ closes, some dpId ≠ some d := fun d hd heq => hcloses (some.inj heq ▸ hd)
  refine (hreg.closes hpend).post_join (hreg.present_closes hcloses hpend ?_)
  rw [h.registerConn_eq]
  split <;> exact ⟨_, _, update_self _ _ _, rfl, rfl, rfl⟩

theorem Inv.registerMgmt (h : Inv none s) (mgmtId : ℕ) : Inv none (s.registerMgmt mgmtId) := by
  have hreg : Inv none (s.registerConn mgmtId mgmtId .mgmt) :=
    h.registerConn .mgmt (iff_of_true rfl rfl)
  exact { hreg with }

/-- **Every step keeps the invariant.** -/
theorem Inv.step (h : Inv none s) {a : Act} (ha : Plain a) (hs : s.step a = some s') :
    Inv none s' := by
  cases a with
  | registerSwitch dpId mgmtId closes =>
    simp only [State.step, ite_none_left_eq_some, some.injEq] at hs
    obtain ⟨-, rfl⟩ := hs
    exact h.registerSwitch ha.1 ha.2
  | registerMgmt mgmtId =>
    simp only [State.step, ite_none_left_eq_some, some.injEq] at hs
    obtain ⟨-, rfl⟩ := hs
    exact h.registerMgmt mgmtId
  | poll c =>
    obtain ⟨hc, rfl⟩ := of_guard hs
    exact h.poll hc
  | recvError c =>
    obtain ⟨hc, rfl⟩ := of_guard hs
    obtain ⟨k, hk⟩ := ne_none_iff_exists'.1 (h.running c hc)
    exact h.close hk ((h.conn c k hk).deletions_of_running hc) fun _ => nofun
  | ret c =>
    obtain ⟨hc, rfl⟩ := of_guard hs
    exact h.ret hc
  | closeRequest dpId =>
    cases hs
    exact h.closeOpenflowConnection nofun

/-- **The table and the lifetime of connections.**  In every state that a run of `Plain` steps
reaches: no deleted connection was used and no assertion has failed; the map has exactly the open
connections, under their ids; a connection was deleted once if it is closing and no poll of it
runs, and otherwise not, and a deleted one is not in the poll loop; and the joins and leaves of
every datapath alternate, the last being a join exactly when an open switch has this id. -/
theorem connections_kept {acts : List Act} (hplain : ∀ a ∈ acts, Plain a)
    (hrun : run State.step State.init acts = some s) :
    s.ok = true ∧
    (∀ d c, s.connectionMap.lookup d = some c ↔
      ∃ k, s.conn c = some k ∧ k.dpId = d ∧ k.closing = false) ∧
    (∀ c k, s.conn c = some k → k.deletions = (if k.closing = true ∧ c ∉ s.running then 1 else 0) ∧
      (k.deletions ≠ 0 → c ∉ s.pollables)) ∧
    ∀ d, Alternate d s.events ∧ (lastIsJoin d s.events = true ↔ Present s.conn d) := by
  have h : Inv none s := run_invariant_of_along (C := fun _ a => Plain a)
    (fun _ _ _ h ha hs => Inv.step h ha hs) inv_init
    (Along.of_forall (fun a ha _ => hplain a ha) _) hrun
  refine ⟨h.ok, h.map, fun c k hk => ⟨(h.conn c k hk).deletions, fun hdel hc => ?_⟩,
    fun d => ⟨h.alternate d, (h.present d).trans (and_iff_left nofun)⟩⟩
  obtain ⟨k', hk', hopen⟩ := (h.pollables c).1 hc
  obtain rfl := some.inj (hk.symm.trans hk')
  exact hdel ((h.conn c k hk).deletions_of_open hopen)

/-- A switch is polled twice at once and is then taken over by another connection of the same id;
a handler of the new one asks to close a management channel. -/
def takeover : List Act :=
  [.registerMgmt 9, .registerSwitch 5 9 [], .poll 1, .poll 1, .registerSwitch 5 0 [9], .ret 1,
    .recvError 1, .ret 1, .closeRequest 7]

/-- The hypotheses of `connections_kept` are satisfiable: `takeover` is a run of plain steps. -/
theorem connections_kept_takeover : ∃ s, run State.step State.init takeover = some s ∧
    s.ok = true ∧ ∀ d, Alternate d s.events := by
  have hplain : ∀ a ∈ takeover, Plain a := by decide
  refine ⟨_, rfl, ?_⟩
  have h := connections_kept hplain rfl
  exact ⟨h.1, fun d => (h.2.2.2 d).1⟩

/-- **A switch may join twice.**  One that announces its datapath id as its management id leaves
as a management channel, so that it joins again without having left.  And one that a handler asks
to close while its flow table is cleared leaves before it joins, and is not there when it has. -/
theorem joined_twice :
    (∃ s, run State.step State.init
        [.registerSwitch 5 5 [], .closeRequest 5, .registerSwitch 5 0 []] = some s ∧
      s.events = [.datapathJoin 5, .switchMgrLeave 5, .datapathJoin 5] ∧
      ¬ Alternate 5 s.events) ∧
    ∃ s, run State.step State.init [.registerSwitch 5 0 [5]] = some s ∧
      s.events = [.datapathJoin 5, .datapathLeave 5] ∧ ¬ Alternate 5 s.events ∧
      lastIsJoin 5 s.events = true ∧ s.connectionMap.lookup 5 = none := by
  refine ⟨⟨_, rfl, rfl, ?_⟩, _, rfl, rfl, ?_, rfl, rfl⟩
  · rintro ⟨-, hlast⟩
    exact false_ne_true (hlast rfl).symm
  · rintro ⟨⟨-, hlast⟩, -⟩
    exact false_ne_true (hlast rfl)

end NoxClassic.Nox
