/-
# The user event log

`src/nox/netapps/user_event_log/user_event_log.cc`.  An entry gets its id when it is logged;
its rows are written once its names have been looked up, one in the main table and then one
in the other table for each name.  A periodic check raises the least id that is kept and
starts to remove the entries below it, one after the other; what fails is tried again.

`Storage_Util::non_trans_remove` asks for a row, removes it and asks again until there is
none.  Each answer of a lookup or of the storage is a step, so that they come in any order.
A row is its table and its id.

The retries are counted for all the ids that are removed together, not for each of them, so an
id may be given up at its first failure (`given_up_at_once`).  A row that is written after its id
was removed stays (`written_late`).
-/

import NoxClassic.Lib.Run
import Mathlib.Data.Int.Notation

namespace NoxClassic.UserEventLog

open Function Lib List

inductive Table where
  | main
  | names
  deriving DecidableEq

/-- The arguments of `internal_clear_cb`, with the table that is cleared and whether a row of it
is being removed. -/
structure Clear where
  curLogid : ℕ
  retryCount : ℕ
  stopLogid : ℕ
  table : Table
  removing : Bool
  deriving DecidableEq

/-- `internal_clear_cb`. -/
def Clear.internalClearCb (ok : Bool) (c : Clear) : Clear :=
  if !ok && c.retryCount < 5 then
    { c with retryCount := c.retryCount + 1, table := .main, removing := false }
  else { c with curLogid := c.curLogid + 1, table := .main, removing := false }

/-- The log, with the rows that are to be written for each id.  `removed` and `failed` are the ids
whose rows were removed and whose writes or removals failed. -/
structure State where
  nextLogId : ℕ
  minLogid : ℕ
  rows : List (Table × ℕ)
  toWrite : ℕ → List Table
  clears : List Clear
  removed : List ℕ
  failed : List ℕ

def init : State := ⟨1, 0, [], fun _ => [], [], [], []⟩

variable (s : State)

/-- `check_excess_entries`. -/
def checkExcessEntries (maxNumEntries : ℤ) : State :=
  let min := (s.nextLogId - maxNumEntries).toNat
  if 0 < maxNumEntries then
    { s with
      minLogid := min
      clears := if s.minLogid ≠ min ∧ 0 < min then ⟨s.minLogid, 0, min, .main, false⟩ :: s.clears
        else s.clears }
  else s

/-- The storage answers what `non_trans_remove` has asked. -/
def answer (c : Clear) (ok : Bool) : Option State :=
  let row := (c.table, c.curLogid)
  let next (c' : Clear) : State := { s with clears := c' :: s.clears.erase c }
  if c ∉ s.clears ∨ c.stopLogid ≤ c.curLogid then none
  else if ok = false then
    some { next (c.internalClearCb false) with failed := c.curLogid :: s.failed }
  else if c.removing then
    -- a row that is gone is not removed with success
    if row ∈ s.rows then
      some { next { c with removing := false } with
        rows := s.rows.erase row, removed := c.curLogid :: s.removed }
    else none
  else if row ∈ s.rows then some (next { c with removing := true })
  else if c.table = .main then some (next { c with table := .names })
  else some (next (c.internalClearCb true))

inductive Act where
  | log (names : ℕ)
  | lookedUp (id names : ℕ)
  | put (id : ℕ) (ok : Bool)
  | check
  | answer (c : Clear) (ok : Bool)

/-- One step.  Lookups come before the first write. -/
def step (maxNumEntries : ℤ) (s : State) : Act → Option State
  | .log names => some { s with
      nextLogId := s.nextLogId + 1
      toWrite := update s.toWrite s.nextLogId (.main :: replicate names .names) }
  | .lookedUp id names =>
    match s.toWrite id with
    | .main :: todo => some { s with
        toWrite := update s.toWrite id (.main :: todo ++ replicate names .names) }
    | _ => none
  | .put id ok =>
    match s.toWrite id with
    | t :: todo =>
      if ok then some { s with rows := (t, id) :: s.rows, toWrite := update s.toWrite id todo }
      else some { s with toWrite := update s.toWrite id [], failed := id :: s.failed }
    | [] => none
  | .check => some (checkExcessEntries s maxNumEntries)
  | .answer c ok => answer s c ok

/-- An entry is removed after it was written, and no clear has more than five failures. -/
def Orderly (s : State) : Act → Prop
  | .answer c ok => s.toWrite c.curLogid = [] ∧ (ok = false → c.retryCount < 5)
  | _ => True

instance (s : State) (a : Act) : Decidable (Orderly s a) := by
  unfold Orderly
  split <;> infer_instance

/-- What is kept: an id below the least one is in a clear, or nothing of it is left. -/
structure Inv (m : ℤ) (s : State) : Prop where
  le_next : s.minLogid ≤ s.nextLogId
  min_le : s.minLogid ≤ (s.nextLogId - m).toNat
  stop_le : ∀ c ∈ s.clears, c.stopLogid ≤ s.minLogid
  main : ∀ c ∈ s.clears, c.curLogid < c.stopLogid → c.table = .names →
    s.toWrite c.curLogid = [] ∧ (.main, c.curLogid) ∉ s.rows
  below : ∀ id < s.minLogid, (∃ c ∈ s.clears, c.curLogid ≤ id ∧ id < c.stopLogid) ∨
    s.toWrite id = [] ∧ ∀ t, (t, id) ∉ s.rows
  removed : ∀ id ∈ s.removed, id < s.minLogid

variable {s} {s' : State} {m : ℤ}

/-- A clear goes on: it leaves its id only when nothing of the id is left. -/
theorem Inv.next {c c' : Clear} {rows : List (Table × ℕ)} {removed failed : List ℕ} (h : Inv m s)
    (hc : c ∈ s.clears) (hrows : rows ⊆ s.rows) (hstop : c'.stopLogid = c.stopLogid)
    (hmain : c'.table = .names → s.toWrite c'.curLogid = [] ∧ (.main, c'.curLogid) ∉ rows)
    (hcur : c'.curLogid = c.curLogid ∨ c'.curLogid = c.curLogid + 1 ∧
      s.toWrite c.curLogid = [] ∧ ∀ t, (t, c.curLogid) ∉ rows)
    (hremoved : ∀ id ∈ removed, id < s.minLogid) :
    Inv m { s with clears := c' :: s.clears.erase c, rows, removed, failed } := by
  refine ⟨h.le_next, h.min_le, fun d hd => ?_, fun d hd hlt ht => ?_, fun id hid => ?_, hremoved⟩
  · rcases mem_cons.1 hd with rfl | hd
    · exact hstop ▸ h.stop_le c hc
    · exact h.stop_le d (mem_of_mem_erase hd)
  · rcases mem_cons.1 hd with rfl | hd
    · exact hmain ht
    · exact (h.main d (mem_of_mem_erase hd) hlt ht).imp_right (mt (hrows ·))
  rcases h.below id hid with ⟨d, hd, hle, hlt⟩ | ⟨hw, hr⟩
  · by_cases hdc : d = c
    · subst hdc
      by_cases hle' : c'.curLogid ≤ id
      · exact .inl ⟨c', mem_cons_self, hle', hstop ▸ hlt⟩
      · -- the clear has passed the id
        rcases hcur with hcur | ⟨hcur, hdone⟩
        · omega
        · obtain rfl : id = d.curLogid := by omega
          exact .inr hdone
    · exact .inl ⟨d, mem_cons_of_mem _ ((mem_erase_of_ne hdc).2 hd), hle, hlt⟩
  · exact .inr ⟨hw, fun t => mt (hrows ·) (hr t)⟩

theorem Inv.answer {c : Clear} {ok : Bool} (h : Inv m s) (hwritten : s.toWrite c.curLogid = [])
    (hretry : ok = false → c.retryCount < 5) (hs : answer s c ok = some s') : Inv m s' := by
  unfold UserEventLog.answer at hs
  dsimp only at hs
  split_ifs at hs with hgo hok hrem hrow hrow htable <;> cases hs
  all_goals
    obtain ⟨hc, hlt⟩ : c ∈ s.clears ∧ c.curLogid < c.stopLogid := by
      rwa [not_or, not_not, Nat.not_le] at hgo
  · -- the id is tried again
    have hcb : c.internalClearCb false =
        { c with retryCount := c.retryCount + 1, table := .main, removing := false } :=
      if_pos (by simpa using hretry hok)
    rw [hcb]
    exact h.next hc (Subset.refl _) rfl nofun (.inl rfl) h.removed
  · have hmin : c.curLogid < s.minLogid := Nat.lt_of_lt_of_le hlt (h.stop_le c hc)
    refine h.next hc (erase_subset ..) rfl (fun ht => ⟨hwritten, ?_⟩) (.inl rfl)
      (forall_mem_cons.2 ⟨hmin, h.removed⟩)
    exact mt mem_of_mem_erase (h.main c hc hlt ht).2
  · exact h.next hc (Subset.refl _) rfl (h.main c hc hlt) (.inl rfl) h.removed
  · exact h.next hc (Subset.refl _) rfl (fun _ => ⟨hwritten, htable ▸ hrow⟩) (.inl rfl) h.removed
  · -- both tables are done
    have hnames : c.table = .names := by
      cases ht : c.table with
      | main => exact absurd ht htable
      | names => rfl
    have hgone : ∀ t, (t, c.curLogid) ∉ s.rows
      | .main => (h.main c hc hlt hnames).2
      | .names => hnames ▸ hrow
    exact h.next hc (Subset.refl _) rfl nofun (.inr ⟨rfl, hwritten, hgone⟩) h.removed

/-- What is logged, looked up or written is of an id that no clear is done with. -/
theorem Inv.write {n id : ℕ} {rows : List (Table × ℕ)} {todo : List Table} {failed : List ℕ}
    (h : Inv m s) (hn : s.nextLogId ≤ n) (hid : s.minLogid ≤ id ∨ s.toWrite id ≠ [])
    (hrows : ∀ r ∈ rows, r ∈ s.rows ∨ r.2 = id) :
    Inv m { s with nextLogId := n, rows, toWrite := update s.toWrite id todo, failed } := by
  have hkept : ∀ j < s.minLogid, s.toWrite j = [] → update s.toWrite id todo j = [] ∧
      ∀ t, (t, j) ∉ s.rows → (t, j) ∉ rows := by
    intro j hj hw
    have hne : j ≠ id := by
      rintro rfl
      exact hid.elim (Nat.not_le.2 hj) (· hw)
    exact ⟨(update_of_ne hne ..).trans hw, fun t ht hr => (hrows _ hr).elim ht hne⟩
  have hmin := h.min_le
  refine ⟨Nat.le_trans h.le_next hn, by dsimp only; omega, h.stop_le, fun c hc hlt ht => ?_,
    fun j hj => (h.below j hj).imp_right fun ⟨hw, hr⟩ => ?_, h.removed⟩
  · obtain ⟨hw, hr⟩ := h.main c hc hlt ht
    have hj := hkept c.curLogid (Nat.lt_of_lt_of_le hlt (h.stop_le c hc)) hw
    exact ⟨hj.1, hj.2 _ hr⟩
  · exact ⟨(hkept j hj hw).1, fun t => (hkept j hj hw).2 t (hr t)⟩

/-- The ids from the old least one up to the new one are in the new clear. -/
theorem Inv.check (h : Inv m s) : Inv m (checkExcessEntries s m) := by
  unfold checkExcessEntries
  dsimp only
  split_ifs with hm hnew
  · have hmin := h.min_le
    refine ⟨by dsimp only; omega, Nat.le_refl _, ?_, ?_, fun id hid => ?_, fun id hid => ?_⟩
    · exact forall_mem_cons.2 ⟨Nat.le_refl _, fun c hc => Nat.le_trans (h.stop_le c hc) hmin⟩
    · exact forall_mem_cons.2 ⟨fun _ => nofun, h.main⟩
    · rcases Nat.lt_or_ge id s.minLogid with hlt | hge
      · refine (h.below id hlt).imp_left ?_
        rintro ⟨c, hc, hcid⟩
        exact ⟨c, mem_cons_of_mem _ hc, hcid⟩
      · exact .inl ⟨_, mem_cons_self, hge, hid⟩
    · exact Nat.lt_of_lt_of_le (h.removed id hid) hmin
  · have hmin : (s.nextLogId - m).toNat = s.minLogid := by
      have hmin := h.min_le
      omega
    rw [hmin]
    exact h
  · exact h

theorem Inv.step {a : Act} (h : Inv m s) (hC : Orderly s a) (hs : step m s a = some s') :
    Inv m s' := by
  cases a with
  | log names =>
    cases hs
    exact h.write (Nat.le_succ _) (.inl h.le_next) fun _ => .inl
  | lookedUp id names =>
    rw [UserEventLog.step] at hs
    split at hs <;> cases hs
    next todo htodo => exact h.write (Nat.le_refl _) (.inr (htodo ▸ nofun)) fun _ => .inl
  | put id ok =>
    rw [UserEventLog.step] at hs
    split at hs
    next t todo htodo =>
      have hid : s.toWrite id ≠ [] := htodo ▸ nofun
      split at hs <;> cases hs
      · exact h.write (Nat.le_refl _) (.inr hid) (forall_mem_cons.2 ⟨.inr rfl, fun _ => .inl⟩)
      · exact h.write (Nat.le_refl _) (.inr hid) fun _ => .inl
    next => cases hs
  | check =>
    cases hs
    exact h.check
  | answer c ok => exact h.answer hC.1 hC.2 hs

/-- **The log keeps the newest entries.**  When the clears are done, no row below the least id is
left, and none from it on was removed. -/
theorem excess_entries_removed (m : ℤ) (acts : List Act) (hC : Along (step m) Orderly init acts)
    (hrun : run (step m) init acts = some s) (hdone : ∀ c ∈ s.clears, c.stopLogid ≤ c.curLogid) :
    (∀ id < s.minLogid, ∀ t, (t, id) ∉ s.rows) ∧ ∀ id ∈ s.removed, id < s.minLogid := by
  have hinit : Inv m init := by constructor <;> simp [init]
  have h := run_invariant_of_along (fun _ _ _ hi hc hs => hi.step hc hs) hinit hC hrun
  refine ⟨fun id hid => ?_, h.removed⟩
  rcases h.below id hid with ⟨c, hc, hle, hlt⟩ | ⟨-, hrows⟩
  · exact absurd (hdone c hc) (by omega)
  · exact hrows

/-- Two entries are logged, the second with a name, and one is kept. -/
def twoEntries : List Act := [.log 0, .put 1 true, .log 1, .put 2 true, .put 2 true, .check]

/-- The first is removed, at the second attempt. -/
def secondAttempt : List Act :=
  twoEntries ++ [.answer ⟨0, 0, 2, .main, false⟩ false, .answer ⟨0, 1, 2, .main, false⟩ true,
    .answer ⟨0, 1, 2, .names, false⟩ true, .answer ⟨1, 1, 2, .main, false⟩ true,
    .answer ⟨1, 1, 2, .main, true⟩ true, .answer ⟨1, 1, 2, .main, false⟩ true,
    .answer ⟨1, 1, 2, .names, false⟩ true]

theorem excess_entries_removed_two : ∃ s, run (step 1) init secondAttempt = some s ∧
    s.rows = [(.names, 2), (.main, 2)] ∧ s.removed = [1] ∧
      ∀ id < s.minLogid, ∀ t, (t, id) ∉ s.rows :=
  ⟨_, rfl, rfl, rfl, (excess_entries_removed 1 secondAttempt (by decide) rfl (by decide)).1⟩

/-- Five failures at the id 0, which has no rows, and one at the id 1, whose row stays. -/
theorem given_up_at_once : ∃ s, run (step 1) init (twoEntries ++
      (List.range 5).map (fun n => .answer ⟨0, n, 2, .main, false⟩ false) ++
      [.answer ⟨0, 5, 2, .main, false⟩ true, .answer ⟨0, 5, 2, .names, false⟩ true,
        .answer ⟨1, 5, 2, .main, false⟩ false]) = some s ∧
    (∀ id < s.nextLogId, s.toWrite id = []) ∧ (∀ c ∈ s.clears, c.stopLogid ≤ c.curLogid) ∧
    (∀ id ∈ s.failed, s.failed.count id ≤ 5) ∧ (.main, 1) ∈ s.rows ∧ 1 < s.minLogid :=
  ⟨_, rfl, by decide, by decide, by decide, by decide, by decide⟩

/-- The entry 1 is written after the removals have passed it. -/
theorem written_late : ∃ s, run (step 1) init [.log 0, .log 0, .put 2 true, .check,
      .answer ⟨0, 0, 2, .main, false⟩ true, .answer ⟨0, 0, 2, .names, false⟩ true,
      .answer ⟨1, 0, 2, .main, false⟩ true, .answer ⟨1, 0, 2, .names, false⟩ true,
      .put 1 true] = some s ∧ (∀ c ∈ s.clears, c.stopLogid ≤ c.curLogid) ∧
    s.failed = [] ∧ (.main, 1) ∈ s.rows ∧ 1 < s.minLogid :=
  ⟨_, rfl, by decide, rfl, by decide, by decide⟩

end NoxClassic.UserEventLog
