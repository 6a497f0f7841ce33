/-
# Commits of a switch's configuration

`Switch_mgr` keeps three copies of a switch's configuration: `global_cfg`, the one the
switch is known to have, `last_commit`, the one sent last, and `local_cfg`, the one
that is changed.  A commit sends `local_cfg` with the cookie of `last_commit`, and the
switch applies it only when this is the cookie of what it has.  Commits are sent
before earlier ones are acknowledged, so several can be in flight, each with its
`CommitInfo` under a transaction id of 32 bits.

A state of the system is the manager, the text of the switch's configuration, and the
updates and acknowledgements on their way, each in order.  A local change is followed
at once by a commit or by a revert.  A commit whose message could not be sent is
followed by a revert, as `commit` asks of its caller.

The invariant (`Tracks`) follows the commits in flight in the order they were sent,
first those the switch has decided (`Replay`) and then those it has not.  While there
are any, either `last_commit` is the latest of them, or it and `local_cfg` are
`global_cfg` and clean (`Latest`).  This happens not only after a rejected commit: an
acknowledged configuration that is textually the local one clears the dirty flag, and
the acknowledgement after it then overwrites commits that are still in flight.

Cookies are values of an arbitrary type, and the digest is an arbitrary function of
the text: nothing below asks that it be injective.

The transaction id wraps, and `commits.insert` of an id that is still in use gives the
entry that is there, which is then overwritten.
-/

import NoxClassic.Lib.Run
import Mathlib.Data.List.Dedup
import Mathlib.Data.List.Sort
import Mathlib.Algebra.Group.Nat.Defs

namespace NoxClassic.SwitchMgr

open Function List Option Lib Prod

/-! ### Configurations -/

/-- `Cfg`: entries in the order of their keys. -/
structure Cfg (D : Type) where
  dirty : Bool
  cfgCookie : D
  cfg : List (List UInt8 × List UInt8)

/-- The text of one entry. -/
def entryText (e : List UInt8 × List UInt8) : List UInt8 := e.1 ++ [61] ++ e.2 ++ [10]

/-- `std::multimap::insert`: behind the entries with the same key. -/
def insertEntry (key value : List UInt8) :
    List (List UInt8 × List UInt8) → List (List UInt8 × List UInt8)
  | [] => [(key, value)]
  | e :: es => if key < e.1 then (key, value) :: e :: es else e :: insertEntry key value es

section Cfg

variable {D : Type} (sha : List UInt8 → D) (c : Cfg D)

/-- `Cfg::to_string`: the lines of the entries, each once and in order. -/
def Cfg.toText : List UInt8 := ((c.cfg.map entryText).dedup.insertionSort (· ≤ ·)).flatten

/-- `Cfg::update_cookie`. -/
def Cfg.updateCookie : Cfg D := { c with cfgCookie := sha c.toText }

/-- `Cfg::get_cookie`, which computes the cookie of a dirty configuration first. -/
def Cfg.getCookie : D × Cfg D :=
  let c := if c.dirty then c.updateCookie sha else c
  (c.cfgCookie, c)

/-- `Cfg::set_dirty`. -/
def Cfg.setDirty (v : Bool) : Cfg D := { c.updateCookie sha with dirty := v }

/-- `Cfg::add_entry`. -/
def Cfg.addEntry (key value : List UInt8) : Cfg D :=
  { c with cfg := insertEntry key value c.cfg, dirty := true }

/-- `Cfg::del_entry`: the first entry with this key and value. -/
def Cfg.delEntry (key value : List UInt8) : Cfg D :=
  if (key, value) ∈ c.cfg then { c with cfg := c.cfg.erase (key, value), dirty := true } else c

/-- A configuration that was loaded. -/
def Cfg.loaded (entries : List (List UInt8 × List UInt8)) : Cfg D :=
  ⟨false, sha ((entries.map entryText).dedup.insertionSort (· ≤ ·)).flatten, entries⟩

/-- The cookie of a clean configuration is that of its text. -/
def Cfg.Valid : Prop := c.dirty = false → c.cfgCookie = sha c.toText

variable {sha c}

theorem Cfg.toText_getCookie : (c.getCookie sha).2.toText = c.toText := by
  unfold Cfg.getCookie
  split_ifs <;> rfl

theorem Cfg.Valid.getCookie (h : c.Valid sha) :
    (c.getCookie sha).1 = sha c.toText ∧ (c.getCookie sha).2.Valid sha := by
  unfold Cfg.getCookie
  split_ifs with hd
  · exact ⟨rfl, fun _ => rfl⟩
  · exact ⟨h (Bool.eq_false_iff.2 hd), h⟩

theorem Cfg.valid_setDirty (v : Bool) : (c.setDirty sha v).Valid sha := fun _ => rfl

theorem Cfg.Valid.addEntry (key value : List UInt8) : (c.addEntry key value).Valid sha := nofun

theorem Cfg.Valid.delEntry (h : c.Valid sha) (key value : List UInt8) :
    (c.delEntry key value).Valid sha := by
  unfold Cfg.delEntry
  split_ifs
  · exact nofun
  · exact h

end Cfg

/-! ### The manager -/

/-- `CommitInfo`. -/
structure CommitInfo (D : Type) where
  cfg : Cfg D
  cookie : D
  oldCookie : D
  callback : ℕ

/-- `Switch_mgr`. -/
structure Mgr (D : Type) where
  xid : ℕ
  localCfg : Cfg D
  lastCommit : Cfg D
  globalCfg : Cfg D
  globalCookie : D
  commits : ℕ → Option (CommitInfo D)

/-- An `ofmp_config_update`. -/
structure Update (D : Type) where
  xid : ℕ
  cookie : D
  text : List UInt8

/-- `Ofmp_config_update_ack_event`. -/
structure Ack (D : Type) where
  xid : ℕ
  success : Bool
  cookie : D

/-- A change of the local configuration.  The typed setters print their value first. -/
inductive Change where
  | addEntry (key value : List UInt8)
  | delEntry (key value : List UInt8)

/-- The transaction id after this one. -/
def nextXid (xid : ℕ) : ℕ := if xid = 2 ^ 32 - 1 then 0 else xid + 1

section Mgr

variable {D : Type} [DecidableEq D] (sha : List UInt8 → D)

def Cfg.change (c : Cfg D) : Change → Cfg D
  | .addEntry key value => c.addEntry key value
  | .delEntry key value => c.delEntry key value

/-- `Switch_mgr::revert`. -/
def Mgr.revert (m : Mgr D) : Mgr D := { m with localCfg := m.lastCommit }

/-- What `commit` notes about the commit. -/
def Mgr.commitInfo (m : Mgr D) (callback : ℕ) : CommitInfo D :=
  ⟨(m.localCfg.getCookie sha).2, (m.localCfg.getCookie sha).1, (m.lastCommit.getCookie sha).1,
    callback⟩

/-- The message that announces a commit. -/
def CommitInfo.update (xid : ℕ) (i : CommitInfo D) : Update D := ⟨xid, i.oldCookie, i.cfg.toText⟩

/-- `Switch_mgr::commit`; `sent` says whether `send_ofmp_msg` returned zero. -/
def Mgr.commit (m : Mgr D) (callback : ℕ) (sent : Bool) : Mgr D :=
  if sent then
    { m with
      xid := nextXid m.xid
      lastCommit := m.localCfg
      commits := update m.commits m.xid (some (m.commitInfo sha callback)) }
  else
    { m with
      xid := nextXid m.xid
      lastCommit := (m.lastCommit.getCookie sha).2
      commits := update m.commits m.xid none }

/-- The end of `set_config` for a dirty local configuration, which is clean again when it is the
global one. -/
def Mgr.matchLocal (m : Mgr D) : Mgr D :=
  let (cookie, last) := m.lastCommit.getCookie sha
  let m := { m with lastCommit := last }
  if m.globalCookie = cookie then
    let (cookie, loc) := m.localCfg.getCookie sha
    if m.globalCookie = cookie then { m with localCfg := loc.setDirty sha false }
    else { m with localCfg := loc }
  else m

/-- `Switch_mgr::set_config`. -/
def Mgr.setConfig (m : Mgr D) (cfg : Cfg D) : Mgr D :=
  let (cookie, global) := cfg.getCookie sha
  let m := { m with globalCookie := cookie, globalCfg := global.setDirty sha false }
  if m.localCfg.dirty = false then
    { m with lastCommit := m.globalCfg, localCfg := m.globalCfg }
  else m.matchLocal sha

/-- What an acknowledgement does to the configurations. -/
def Mgr.settle (m : Mgr D) (i : CommitInfo D) (ocua : Ack D) : Mgr D :=
  if ocua.success then
    if i.cookie ≠ ocua.cookie then m
    else if i.oldCookie ≠ m.globalCookie then m
    else m.setConfig sha i.cfg
  else { m with lastCommit := m.globalCfg, localCfg := m.globalCfg }

/-- `Switch_mgr::config_ack_handler`: the callback that is invoked, and with what. -/
def Mgr.configAckHandler (m : Mgr D) (ocua : Ack D) : Option (ℕ × Bool) × Mgr D :=
  match m.commits ocua.xid with
  | none => (none, m)
  | some i =>
    let m := m.settle sha i ocua
    (some (i.callback, ocua.success),
      { m with commits := update m.commits ocua.xid none })

/-! ### The system -/

/-- The manager, the switch, and the messages between them. -/
structure System (D : Type) where
  mgr : Mgr D
  /-- The text of the switch's configuration. -/
  conf : List UInt8
  updates : List (Update D)
  acks : List (Ack D)
  /-- The callbacks of the commits that were sent. -/
  sent : List ℕ
  /-- For each update that the switch has seen, whether it was applied. -/
  results : List Bool
  /-- The callbacks that were invoked. -/
  calls : List (ℕ × Bool)

inductive Op where
  /-- Changes, a commit of them, and a revert if it could not be sent. -/
  | commit (changes : List Change) (callback : ℕ) (sent : Bool)
  | revert (changes : List Change)
  /-- The switch decides about the next update, which it may reject. -/
  | decide (accept : Bool)
  | ack

/-- The manager after local changes. -/
def Mgr.change (m : Mgr D) (changes : List Change) : Mgr D :=
  { m with localCfg := changes.foldl Cfg.change m.localCfg }

def System.commit (s : System D) (changes : List Change) (callback : ℕ) (sent : Bool) : System D :=
  let m := s.mgr.change changes
  if sent then
    { s with
      mgr := m.commit sha callback true
      updates := s.updates ++ [(m.commitInfo sha callback).update m.xid]
      sent := s.sent ++ [callback] }
  else { s with mgr := (m.commit sha callback false).revert }

/-- The switch's decision about an update. -/
def System.decide (s : System D) (u : Update D) (updates : List (Update D)) (accept : Bool) :
    System D :=
  let applied := accept && Decidable.decide (u.cookie = sha s.conf)
  let conf := if applied then u.text else s.conf
  { s with
    conf := conf
    updates := updates
    acks := s.acks ++ [⟨u.xid, applied, sha conf⟩]
    results := s.results ++ [applied] }

def System.ack (s : System D) (ocua : Ack D) (acks : List (Ack D)) : System D :=
  let r := s.mgr.configAckHandler sha ocua
  { s with mgr := r.2, acks := acks, calls := s.calls ++ r.1.toList }

def step (s : System D) : Op → Option (System D)
  | .commit changes callback sent => some (s.commit sha changes callback sent)
  | .revert changes => some { s with mgr := (s.mgr.change changes).revert }
  | .decide accept =>
    match s.updates with
    | [] => none
    | u :: us => some (s.decide sha u us accept)
  | .ack =>
    match s.acks with
    | [] => none
    | a :: as => some (s.ack sha a as)

/-- A manager before it has the switch's configuration; the memory of its cookies is not set. -/
def Mgr.init (junk : D) : Mgr D :=
  ⟨0, ⟨false, junk, []⟩, ⟨false, junk, []⟩, ⟨false, junk, []⟩, junk, fun _ => none⟩

/-- The system when the manager has received the switch's configuration. -/
def System.start (junk : D) (entries : List (List UInt8 × List UInt8)) : System D :=
  ⟨(Mgr.init junk).setConfig sha (Cfg.loaded sha entries), (Cfg.loaded sha entries).toText, [], [],
    [], [], []⟩

/-! ### What each operation does to the configurations -/

variable {sha} {m : Mgr D}

omit [DecidableEq D] in
theorem Cfg.Valid.changes (changes : List Change) {c : Cfg D} (h : c.Valid sha) :
    (changes.foldl Cfg.change c).Valid sha := by
  induction changes generalizing c with
  | nil => exact h
  | cons change changes ih =>
    refine ih ?_
    cases change with
    | addEntry key value => exact Cfg.Valid.addEntry key value
    | delEntry key value => exact h.delEntry key value

/-- What holds of the configurations between two operations. -/
structure Mgr.Sound (sha : List UInt8 → D) (m : Mgr D) : Prop where
  globalClean : m.globalCfg.dirty = false
  globalValid : m.globalCfg.Valid sha
  globalCookie : m.globalCookie = sha m.globalCfg.toText
  lastValid : m.lastCommit.Valid sha
  localValid : m.localCfg.Valid sha
  localText : m.localCfg.toText = m.lastCommit.toText

/-- The last commit is the latest one in flight, or the local configuration is the global one and
clean if there is a commit in flight. -/
def Mgr.Latest (m : Mgr D) (pending : List (ℕ × CommitInfo D)) : Prop :=
  (∃ earlier xid i, pending = earlier ++ [(xid, i)] ∧ m.lastCommit.toText = i.cfg.toText) ∨
  ((pending ≠ [] → m.localCfg.dirty = false ∧ m.lastCommit.dirty = false) ∧
    m.lastCommit.toText = m.globalCfg.toText)

omit [DecidableEq D] in
theorem Mgr.Sound.commit (h : m.Sound sha) (changes : List Change) (callback : ℕ) :
    ((m.change changes).commit sha callback true).Sound sha := by
  have hv := h.localValid.changes changes
  exact ⟨h.globalClean, h.globalValid, h.globalCookie, hv, hv, rfl⟩

omit [DecidableEq D] in
/-- A manager whose local and last configurations are the global one. -/
theorem Mgr.Sound.reset (h : m.Sound sha) :
    Mgr.Sound sha { m with lastCommit := m.globalCfg, localCfg := m.globalCfg } :=
  ⟨h.globalClean, h.globalValid, h.globalCookie, h.globalValid, h.globalValid, rfl⟩

/-- The texts of the configurations stay. -/
structure Mgr.SameTexts (sha : List UInt8 → D) (m m' : Mgr D) : Prop where
  lastText : m'.lastCommit.toText = m.lastCommit.toText
  localText : m'.localCfg.toText = m.localCfg.toText
  lastValid : m'.lastCommit.Valid sha
  localValid : m'.localCfg.Valid sha
  globalCfg : m'.globalCfg = m.globalCfg
  globalCookie : m'.globalCookie = m.globalCookie
  commits : m'.commits = m.commits

/-- The comparisons at the end of `set_config` change no text. -/
theorem Mgr.sameTexts_matchLocal (hl : m.lastCommit.Valid sha) (hloc : m.localCfg.Valid sha) :
    m.SameTexts sha (m.matchLocal sha) := by
  unfold Mgr.matchLocal
  dsimp only
  split_ifs
  · exact ⟨Cfg.toText_getCookie, Cfg.toText_getCookie, hl.getCookie.2, Cfg.valid_setDirty _, rfl,
      rfl, rfl⟩
  · exact ⟨Cfg.toText_getCookie, Cfg.toText_getCookie, hl.getCookie.2, hloc.getCookie.2, rfl, rfl,
      rfl⟩
  · exact ⟨Cfg.toText_getCookie, rfl, hl.getCookie.2, hloc, rfl, rfl, rfl⟩

/-- What `set_config` leaves behind: the local configuration was clean and is now the global one,
or its text stays. -/
structure Mgr.Configured (sha : List UInt8 → D) (m : Mgr D) (text : List UInt8) (m' : Mgr D) :
    Prop where
  sound : m'.Sound sha
  globalText : m'.globalCfg.toText = text
  commits : m'.commits = m.commits
  kept : m.localCfg.dirty = true ∧ m'.lastCommit.toText = m.lastCommit.toText ∨
    m'.localCfg.dirty = false ∧ m'.lastCommit.dirty = false ∧ m'.lastCommit.toText = text

theorem Mgr.configured_setConfig {cfg : Cfg D} (hcfg : cfg.Valid sha)
    (hl : m.lastCommit.Valid sha) (hloc : m.localCfg.dirty = true → m.localCfg.Valid sha)
    (htext : m.localCfg.dirty = true → m.localCfg.toText = m.lastCommit.toText) :
    m.Configured sha cfg.toText (m.setConfig sha cfg) := by
  have hg : ((cfg.getCookie sha).2.setDirty sha false).toText = cfg.toText := Cfg.toText_getCookie
  have hgc : (cfg.getCookie sha).1 = sha ((cfg.getCookie sha).2.setDirty sha false).toText := by
    rw [hg, hcfg.getCookie.1]
  unfold Mgr.setConfig
  dsimp only
  split_ifs with hd
  · exact ⟨⟨rfl, Cfg.valid_setDirty _, hgc, Cfg.valid_setDirty _, Cfg.valid_setDirty _, rfl⟩, hg,
      rfl, .inr ⟨rfl, rfl, hg⟩⟩
  have hd' := Bool.eq_true_of_not_eq_false hd
  have h := Mgr.sameTexts_matchLocal (m := { m with
      globalCookie := (cfg.getCookie sha).1
      globalCfg := (cfg.getCookie sha).2.setDirty sha false }) hl (hloc hd')
  refine ⟨⟨?_, ?_, ?_, h.lastValid, h.localValid, ?_⟩, ?_, h.commits, .inl ⟨hd', h.lastText⟩⟩
  · rw [h.globalCfg]
    rfl
  · rw [h.globalCfg]
    exact Cfg.valid_setDirty _
  · rw [h.globalCookie, h.globalCfg]
    exact hgc
  · rw [h.localText, h.lastText]
    exact htext hd'
  · rw [h.globalCfg]
    exact hg

/-! ### The commits in flight -/

/-- The decisions of the switch about commits, from a configuration to the one it has after
them. -/
inductive Replay (sha : List UInt8 → D) :
    List UInt8 → List (ℕ × CommitInfo D) → List (Ack D) → List UInt8 → Prop where
  | nil (conf : List UInt8) : Replay sha conf [] [] conf
  | applied {conf conf' : List UInt8} {xid : ℕ} {i : CommitInfo D}
      {decided : List (ℕ × CommitInfo D)} {acks : List (Ack D)} :
      i.oldCookie = sha conf → Replay sha i.cfg.toText decided acks conf' →
      Replay sha conf ((xid, i) :: decided) (⟨xid, true, sha i.cfg.toText⟩ :: acks) conf'
  | rejected {conf conf' : List UInt8} {xid : ℕ} {i : CommitInfo D} {cookie : D}
      {decided : List (ℕ × CommitInfo D)} {acks : List (Ack D)} :
      Replay sha conf decided acks conf' →
      Replay sha conf ((xid, i) :: decided) (⟨xid, false, cookie⟩ :: acks) conf'

variable {acks : List (Ack D)}

omit [DecidableEq D] in
/-- One more decision at the end. -/
theorem Replay.append {conf conf' conf'' : List UInt8} {decided decided' : List (ℕ × CommitInfo D)}
    {acks' : List (Ack D)} (h : Replay sha conf decided acks conf')
    (h' : Replay sha conf' decided' acks' conf'') :
    Replay sha conf (decided ++ decided') (acks ++ acks') conf'' := by
  induction h with
  | nil conf => exact h'
  | applied hold _ ih => exact .applied hold (ih h')
  | rejected _ ih => exact .rejected (ih h')

omit [DecidableEq D] in
theorem Replay.length_eq {conf conf' : List UInt8} {decided : List (ℕ × CommitInfo D)}
    (h : Replay sha conf decided acks conf') : decided.length = acks.length := by
  induction h with
  | nil conf => rfl
  | applied _ _ ih | rejected _ ih => exact congrArg Nat.succ ih

/-- A commit that is noted under its transaction id. -/
def Noted (sha : List UInt8 → D) (i : CommitInfo D) : Prop :=
  i.cfg.Valid sha ∧ i.cookie = sha i.cfg.toText

/-- The commits in flight, in the order they were sent: those that the switch has decided and
those that wait for it. -/
structure Tracks (sha : List UInt8 → D) (s : System D)
    (decided waiting : List (ℕ × CommitInfo D)) : Prop where
  sound : s.mgr.Sound sha
  latest : s.mgr.Latest (decided ++ waiting)
  commits : ∀ xid i, s.mgr.commits xid = some i ↔ (xid, i) ∈ decided ++ waiting
  nodup : ((decided ++ waiting).map fst).Nodup
  noted : ∀ p ∈ decided ++ waiting, Noted sha p.2
  updates : s.updates = waiting.map fun p => p.2.update p.1
  replay : Replay sha s.mgr.globalCfg.toText decided s.acks s.conf
  sent : s.sent = s.calls.map fst ++ (decided ++ waiting).map fun p => p.2.callback
  results : s.results = s.calls.map snd ++ s.acks.map Ack.success

/-- The transaction id that a commit takes is not that of a commit in flight. -/
def FreshXid (s : System D) : Op → Prop
  | .commit _ _ _ => s.mgr.commits s.mgr.xid = none
  | _ => True

section Steps

variable {s : System D} {decided waiting : List (ℕ × CommitInfo D)}

omit [DecidableEq D] in
theorem Tracks.fresh (h : Tracks sha s decided waiting) (hfresh : s.mgr.commits s.mgr.xid = none) :
    s.mgr.xid ∉ (decided ++ waiting).map fst := by
  intro hmem
  obtain ⟨⟨xid, i⟩, hp, rfl⟩ := mem_map.1 hmem
  rw [(h.commits _ i).2 hp] at hfresh
  nomatch hfresh

omit [DecidableEq D] in
theorem Tracks.commit (h : Tracks sha s decided waiting)
    (hfresh : s.mgr.commits s.mgr.xid = none) (changes : List Change) (callback : ℕ) :
    Tracks sha (s.commit sha changes callback true) decided
      (waiting ++ [(s.mgr.xid, (s.mgr.change changes).commitInfo sha callback)]) := by
  have hnew := h.fresh hfresh
  have hvalid := h.sound.localValid.changes changes
  refine ⟨h.sound.commit changes callback, .inl ⟨decided ++ waiting, s.mgr.xid,
    (s.mgr.change changes).commitInfo sha callback, ?_, ?_⟩, ?_, ?_, ?_, ?_, h.replay, ?_,
    h.results⟩
  · exact (append_assoc ..).symm
  · exact Cfg.toText_getCookie.symm
  · intro xid i
    show update s.mgr.commits s.mgr.xid (some _) xid = some i ↔ _
    rw [← append_assoc, mem_append, mem_singleton, mk.injEq]
    by_cases hx : xid = s.mgr.xid
    · subst hx
      have hnot : (s.mgr.xid, i) ∉ decided ++ waiting := fun hp => hnew (mem_map_of_mem hp)
      rw [update_self, some.injEq]
      exact ⟨fun heq => .inr ⟨rfl, heq.symm⟩,
        fun hor => hor.elim (fun hp => absurd hp hnot) fun heq => heq.2.symm⟩
    · rw [update_of_ne hx, h.commits]
      exact ⟨.inl, fun hor => hor.elim id fun heq => absurd heq.1 hx⟩
  · rw [← append_assoc, map_append]
    refine h.nodup.append (nodup_singleton _) ?_
    intro x hx hx'
    rw [mem_singleton.1 hx'] at hx
    exact hnew hx
  · intro p hp
    rw [← append_assoc, mem_append, mem_singleton] at hp
    rcases hp with hp | rfl
    · exact h.noted p hp
    · exact ⟨hvalid.getCookie.2, hvalid.getCookie.1.trans (congrArg sha Cfg.toText_getCookie.symm)⟩
  · rw [map_append, ← h.updates]
    rfl
  · show s.sent ++ [callback] = s.calls.map fst ++ _
    rw [← append_assoc, map_append, ← append_assoc, ← h.sent]
    rfl

omit [DecidableEq D] in
/-- A commit that could not be sent leaves the configurations as they are. -/
theorem Tracks.commit_failed (h : Tracks sha s decided waiting)
    (hfresh : s.mgr.commits s.mgr.xid = none) (changes : List Change) (callback : ℕ) :
    Tracks sha (s.commit sha changes callback false) decided waiting := by
  have hlast := h.sound.lastValid.getCookie.2
  refine { h with
    sound := { h.sound with lastValid := hlast, localValid := hlast, localText := rfl }
    latest := ?_
    commits := fun xid i => ?_ }
  · rcases h.latest with ⟨earlier, xid, i, hp, htext⟩ | ⟨hclean, htext⟩
    · exact .inl ⟨earlier, xid, i, hp, Cfg.toText_getCookie.trans htext⟩
    · refine .inr ⟨fun hne => ?_, Cfg.toText_getCookie.trans htext⟩
      have hd : (s.mgr.lastCommit.getCookie sha).2.dirty = false := by
        unfold Cfg.getCookie
        split_ifs <;> exact (hclean hne).2
      exact ⟨hd, hd⟩
  · show update s.mgr.commits s.mgr.xid none xid = some i ↔ _
    rw [← h.commits, ← hfresh, update_eq_self]

omit [DecidableEq D] in
theorem Tracks.revert (h : Tracks sha s decided waiting) (changes : List Change) :
    Tracks sha { s with mgr := (s.mgr.change changes).revert } decided waiting := by
  refine { h with
    sound := { h.sound with localValid := h.sound.lastValid, localText := rfl }
    latest := ?_ }
  rcases h.latest with ⟨earlier, xid, i, hp, htext⟩ | ⟨hclean, htext⟩
  · exact .inl ⟨earlier, xid, i, hp, htext⟩
  · exact .inr ⟨fun hne => ⟨(hclean hne).2, (hclean hne).2⟩, htext⟩

variable {xid : ℕ} {i : CommitInfo D}

/-- The switch decides about the commit that has waited longest. -/
theorem Tracks.decide (h : Tracks sha s decided ((xid, i) :: waiting)) (accept : Bool) :
    Tracks sha (s.decide sha (i.update xid) (waiting.map fun p => p.2.update p.1) accept)
      (decided ++ [(xid, i)]) waiting := by
  have happ : (decided ++ [(xid, i)]) ++ waiting = decided ++ (xid, i) :: waiting := by
    rw [append_assoc]
    rfl
  refine ⟨h.sound, happ ▸ h.latest, happ ▸ h.commits, happ ▸ h.nodup, happ ▸ h.noted, rfl, ?_,
    happ ▸ h.sent, ?_⟩
  · refine h.replay.append ?_
    by_cases hdec : (accept && Decidable.decide (i.oldCookie = sha s.conf)) = true
    · have hold := of_decide_eq_true (Bool.and_eq_true_iff.1 hdec).2
      unfold System.decide CommitInfo.update
      simp only [hdec, if_pos]
      exact .applied hold (.nil _)
    · unfold System.decide CommitInfo.update
      simp only [Bool.eq_false_iff.2 hdec, Bool.false_eq_true, if_false]
      exact .rejected (.nil _)
  · show s.results ++ [_] = _ ++ List.map _ (s.acks ++ [_])
    rw [h.results, map_append, append_assoc]
    rfl

omit [DecidableEq D] in
/-- The table of commits when the first one in flight is done. -/
theorem Tracks.commits_tail
    (h : Tracks sha s ((xid, i) :: decided) waiting) (x : ℕ) (j : CommitInfo D) :
    update s.mgr.commits xid none x = some j ↔ (x, j) ∈ decided ++ waiting := by
  have hnot := (nodup_cons.1 h.nodup).1
  by_cases hx : x = xid
  · subst hx
    rw [update_self]
    exact ⟨nofun, fun hp => absurd (mem_map_of_mem hp) hnot⟩
  · rw [update_of_ne hx, h.commits]
    show _ ∈ (xid, i) :: (decided ++ waiting) ↔ _
    rw [mem_cons, mk.injEq]
    exact ⟨fun hor => hor.elim (fun heq => absurd heq.1 hx) id, .inr⟩

variable {ocua : Ack D}

/-- The manager after the first commit in flight was acknowledged. -/
theorem Tracks.settle
    (h : Tracks sha s ((xid, i) :: decided) waiting) (hacks : s.acks = ocua :: acks) :
    ocua.xid = xid ∧ (s.mgr.settle sha i ocua).Sound sha ∧
    (s.mgr.settle sha i ocua).Latest (decided ++ waiting) ∧
    (s.mgr.settle sha i ocua).commits = s.mgr.commits ∧
    Replay sha (s.mgr.settle sha i ocua).globalCfg.toText decided acks s.conf := by
  have hnoted := h.noted (xid, i) (mem_cons_self ..)
  have hreplay := h.replay
  rw [hacks] at hreplay
  cases hreplay with
  | rejected hrest =>
    exact ⟨rfl, h.sound.reset, .inr ⟨fun _ => ⟨h.sound.globalClean, h.sound.globalClean⟩, rfl⟩,
      rfl, hrest⟩
  | applied hold hrest =>
    have hset : s.mgr.settle sha i ⟨xid, true, sha i.cfg.toText⟩ = s.mgr.setConfig sha i.cfg := by
      unfold Mgr.settle
      rw [if_pos rfl, if_neg (not_not.2 hnoted.2),
        if_neg (not_not.2 (hold.trans h.sound.globalCookie.symm))]
    have hcfg := Mgr.configured_setConfig hnoted.1 h.sound.lastValid (fun _ => h.sound.localValid)
      fun _ => h.sound.localText
    rw [hset]
    refine ⟨rfl, hcfg.sound, ?_, hcfg.commits, hcfg.globalText ▸ hrest⟩
    rcases hcfg.kept with ⟨hdirty, hkept⟩ | ⟨hlocal, hlast, htext⟩
    · rcases h.latest with ⟨earlier, x, j, hp, htext⟩ | ⟨hclean, -⟩
      · -- the latest commit in flight is this one, or one behind it
        cases earlier with
        | nil =>
          obtain ⟨heq, hnil⟩ := List.cons.inj hp
          obtain ⟨-, rfl⟩ := mk.inj heq
          refine .inr ⟨absurd hnil, ?_⟩
          rw [hkept, htext, hcfg.globalText]
        | cons q earlier =>
          exact .inl ⟨earlier, x, j, (List.cons.inj hp).2, hkept.trans htext⟩
      · rw [(hclean (cons_ne_nil _ _)).1] at hdirty
        nomatch hdirty
    · exact .inr ⟨fun _ => ⟨hlocal, hlast⟩, htext.trans hcfg.globalText.symm⟩

/-- The acknowledgement of the first commit in flight invokes its callback. -/
theorem Tracks.ack
    (h : Tracks sha s ((xid, i) :: decided) waiting) (hacks : s.acks = ocua :: acks) :
    Tracks sha (s.ack sha ocua acks) decided waiting := by
  obtain ⟨hxid, hsound, hlatest, hcommits, hreplay⟩ := h.settle hacks
  have hfind : s.mgr.commits ocua.xid = some i := (h.commits _ _).2 (hxid ▸ mem_cons_self ..)
  have hack : s.mgr.configAckHandler sha ocua = (some (i.callback, ocua.success),
      { s.mgr.settle sha i ocua with
        commits := update s.mgr.commits xid none }) := by
    unfold Mgr.configAckHandler
    rw [hfind]
    dsimp only
    rw [hcommits, hxid]
  unfold System.ack
  rw [hack]
  refine ⟨{ hsound with }, hlatest, h.commits_tail,
    (nodup_cons.1 h.nodup).2, fun p hp => h.noted p (mem_cons_of_mem _ hp), h.updates,
    hreplay, ?_, ?_⟩
  · dsimp only
    rw [h.sent, toList_some, s.calls.map_append, append_assoc]
    rfl
  · dsimp only
    rw [h.results, hacks, toList_some, map_append, append_assoc]
    rfl

/-- Some commits in flight account for the state. -/
def Inv (sha : List UInt8 → D) (s : System D) : Prop :=
  ∃ decided waiting, Tracks sha s decided waiting

/-- **Every operation keeps the account of the commits in flight**, when a commit takes a
transaction id that is not in use. -/
theorem Inv.step {op : Op} {t : System D} (h : Inv sha s) (hfresh : FreshXid s op)
    (hstep : step sha s op = some t) : Inv sha t := by
  obtain ⟨decided, waiting, h⟩ := h
  cases op with
  | commit changes callback sent =>
    cases hstep
    cases sent with
    | true => exact ⟨_, _, h.commit hfresh changes callback⟩
    | false => exact ⟨_, _, h.commit_failed hfresh changes callback⟩
  | revert changes =>
    cases hstep
    exact ⟨_, _, h.revert changes⟩
  | decide accept =>
    have hup := h.updates
    unfold SwitchMgr.step at hstep
    cases waiting with
    | nil =>
      rw [show s.updates = [] from hup] at hstep
      nomatch hstep
    | cons p waiting =>
      obtain ⟨xid, i⟩ := p
      rw [show s.updates = i.update xid :: waiting.map fun p => p.2.update p.1 from hup] at hstep
      cases hstep
      exact ⟨_, _, h.decide accept⟩
  | ack =>
    unfold SwitchMgr.step at hstep
    cases hacks : s.acks with rw [hacks] at hstep
    | nil => nomatch hstep
    | cons ocua acks =>
      cases hstep
      cases decided with
      | nil =>
        have := h.replay
        rw [hacks] at this
        nomatch this
      | cons p decided => exact ⟨_, _, h.ack hacks⟩

end Steps

end Mgr

/-! ### Runs -/

section Text

variable {D : Type} {sha : List UInt8 → D} {c c' : Cfg D} {e w : List UInt8 × List UInt8}
  {es : List (List UInt8 × List UInt8)}

/-- `parse_entry`. -/
def parseEntry (entry : List UInt8) : List UInt8 × List UInt8 :=
  if 61 ∈ entry then (entry.takeWhile (· ≠ 61), (entry.dropWhile (· ≠ 61)).tail) else ([], [])

/-- What one line adds. -/
def readEntry (cfg : List (List UInt8 × List UInt8)) (entry : List UInt8) :
    List (List UInt8 × List UInt8) :=
  let (key, value) := parseEntry entry
  if key ≠ [] then insertEntry key value cfg else cfg

/-- `Cfg::load`, which reads the lines that are not empty. -/
def Cfg.load (sha : List UInt8 → D) (data : List UInt8) : Cfg D :=
  .loaded sha (((data.splitOn 10).filter (· ≠ [])).foldl readEntry [])

/-- An entry that has a line of its own. -/
def Writable (e : List UInt8 × List UInt8) : Prop :=
  e.1 ≠ [] ∧ 61 ∉ e.1 ∧ 10 ∉ e.1 ∧ 10 ∉ e.2

theorem parseEntry_line (h : Writable e) : parseEntry (e.1 ++ 61 :: e.2) = e := by
  have hkey : ∀ x ∈ e.1, decide (x ≠ 61) = true := fun x hx => by
    simpa using ne_of_mem_of_not_mem hx h.2.1
  rw [parseEntry, if_pos (by simp), takeWhile_append_of_pos hkey, dropWhile_append_of_pos hkey]
  simp

theorem entryText_eq (e : List UInt8 × List UInt8) : entryText e = (e.1 ++ 61 :: e.2) ++ [10] := by
  simp [entryText]

theorem entryText_inj (h : Writable e) (h' : Writable w) (heq : entryText e = entryText w) :
    e = w := by
  rw [entryText_eq, entryText_eq, append_cancel_right_eq] at heq
  rw [← parseEntry_line h, heq, parseEntry_line h']

theorem mem_insertEntry (key value : List UInt8) :
    e ∈ insertEntry key value es ↔ e ∈ es ∨ e = (key, value) := by
  induction es with
  | nil => simp [insertEntry]
  | cons a es ih =>
    unfold insertEntry
    split_ifs
    · rw [mem_cons, or_comm]
    · rw [mem_cons, ih, mem_cons]
      exact or_assoc.symm

/-- The lines of entries are read back. -/
theorem mem_readLines {ls : List (List UInt8)}
    (hls : ∀ l ∈ ls, ∃ w, Writable w ∧ entryText w = l) :
    e ∈ ((ls.flatten.splitOn 10).filter (· ≠ [])).foldl readEntry es ↔
      e ∈ es ∨ Writable e ∧ entryText e ∈ ls := by
  induction ls generalizing es with
  | nil => simp [splitOn]
  | cons l ls ih =>
    obtain ⟨⟨w, hw, rfl⟩, hrest⟩ := forall_mem_cons.1 hls
    have hline : ∀ x ∈ w.1 ++ 61 :: w.2, (x == 10) = false := by
      rintro x hx
      refine beq_false_of_ne ?_
      rintro rfl
      simp [hw.2.2.1, hw.2.2.2] at hx
    have hsplit : (entryText w :: ls).flatten.splitOn 10 =
        (w.1 ++ 61 :: w.2) :: ls.flatten.splitOn 10 := by
      rw [flatten_cons, entryText_eq, append_assoc]
      exact splitOnP_append_cons_of_forall_mem hline 10 rfl _
    have hread : readEntry es (w.1 ++ 61 :: w.2) = insertEntry w.1 w.2 es := by
      rw [readEntry, parseEntry_line hw]
      exact if_pos hw.1
    have hself : Writable e ∧ entryText e = entryText w ↔ e = w :=
      ⟨fun h => entryText_inj h.1 hw h.2, fun h => h ▸ ⟨h ▸ hw, rfl⟩⟩
    rw [hsplit, filter_cons_of_pos (by simp), foldl_cons, hread, ih hrest, mem_insertEntry,
      mem_cons, and_or_left, hself]
    exact or_assoc

/-- The text says which entries there are, not in which order they came. -/
theorem Cfg.toText_congr (h : ∀ e, e ∈ c'.cfg ↔ e ∈ c.cfg) : c'.toText = c.toText := by
  have hperm : (c'.cfg.map entryText).dedup.Perm (c.cfg.map entryText).dedup :=
    (perm_ext_iff_of_nodup (nodup_dedup _) (nodup_dedup _)).2 fun l => by simp [h]
  have hsorted (l : List (List UInt8)) := pairwise_insertionSort (· ≤ ·) l
  refine congrArg flatten (Perm.eq_of_pairwise (fun _ _ _ _ => List.le_antisymm) (hsorted _)
    (hsorted _) ?_)
  exact (perm_insertionSort _ _).trans (hperm.trans (perm_insertionSort _ _).symm)

/-- What is done to a configuration. -/
inductive CfgOp where
  | change (change : Change)
  | load (data : List UInt8)
  | setDirty (v : Bool)

def Cfg.next (sha : List UInt8 → D) (c : Cfg D) : CfgOp → Cfg D
  | .change change => c.change change
  | .load data => .load sha data
  | .setDirty v => c.setDirty sha v

theorem Cfg.Valid.run (ops : List CfgOp) (h : c.Valid sha) :
    (ops.foldl (Cfg.next sha) c).Valid sha := by
  induction ops generalizing c with
  | nil => exact h
  | cons op ops ih =>
    refine ih ?_
    cases op with
    | change change => exact h.changes [change]
    | load | setDirty => exact fun _ => rfl

/-- **The text of a configuration is canonical.**  Loaded, it gives the same entries and the same
text, and it does not depend on the order of the entries.  The cookie, also that of a copy, is the
digest of the text once an entry was added, a text was loaded or `set_dirty` was called. -/
theorem text_canonical (hc : ∀ e ∈ c.cfg, Writable e) :
    ((∀ e, e ∈ (Cfg.load sha c.toText).cfg ↔ e ∈ c.cfg) ∧
      (Cfg.load sha c.toText).toText = c.toText) ∧
    (∀ c' : Cfg D, (∀ e, e ∈ c'.cfg ↔ e ∈ c.cfg) → c'.toText = c.toText) ∧
    ∀ (junk : D) (ops : List CfgOp), (∃ op ∈ ops, ∀ key value, op ≠ .change (.delEntry key value)) →
      ∀ c', c' = ops.foldl (Cfg.next sha) ⟨false, junk, []⟩ →
        (c'.getCookie sha).1 = sha c'.toText := by
  have hsame (e : List UInt8 × List UInt8) : e ∈ (Cfg.load sha c.toText).cfg ↔ e ∈ c.cfg := by
    refine (mem_readLines fun l hl => ?_).trans ?_
    · obtain ⟨w, hw, rfl⟩ := mem_map.1 (mem_dedup.1 ((mem_insertionSort _).1 hl))
      exact ⟨w, hc w hw, rfl⟩
    · rw [mem_insertionSort, mem_dedup, List.mem_map]
      refine ⟨?_, fun he => .inr ⟨hc e he, e, he, rfl⟩⟩
      rintro (he | ⟨he, w, hw, heq⟩)
      · nomatch he
      · exact entryText_inj (hc w hw) he heq ▸ hw
  refine ⟨⟨hsame, Cfg.toText_congr hsame⟩, fun c' => Cfg.toText_congr, ?_⟩
  rintro junk ops ⟨op, hop, hne⟩ _ rfl
  obtain ⟨before, after, rfl⟩ := append_of_mem hop
  rw [foldl_append, foldl_cons]
  refine (Cfg.Valid.run after ?_).getCookie.1
  cases op with
  | change change =>
    cases change with
    | addEntry => exact nofun
    | delEntry key value => exact absurd rfl (hne key value)
  | load | setDirty => exact fun _ => rfl

/-- Three entries, two with one key, and the text of the same entries in another order. -/
theorem text_canonical_three :
    let entries : List (List UInt8 × List UInt8) := [([98], [61]), ([97], [50]), ([97], [49])]
    let c : Cfg (List UInt8) := ⟨false, [], entries⟩
    (∀ e, e ∈ (Cfg.load id c.toText).cfg ↔ e ∈ entries) ∧
    (⟨false, [], entries.reverse⟩ : Cfg (List UInt8)).toText = c.toText ∧
    ((Cfg.next id ⟨false, [1], []⟩ (.setDirty true)).getCookie id).1 = [] := by
  intro entries c
  have hw : ∀ e ∈ c.cfg, Writable e := by
    simp [c, entries, Writable]
  obtain ⟨⟨hload, -⟩, horder, hcookie⟩ := @text_canonical _ id _ hw
  exact ⟨hload, horder ⟨false, [], entries.reverse⟩ fun e => mem_reverse,
    hcookie [1] [.setDirty true] ⟨_, mem_singleton_self _, nofun⟩ _ rfl⟩

/-- A new configuration has no cookie yet, and gives away the memory. -/
theorem new_cookie_unset : (Cfg.getCookie id ⟨false, [1], []⟩).1 = [1] ∧
    (⟨false, [1], []⟩ : Cfg (List UInt8)).toText = [] := by
  decide

end Text

end NoxClassic.SwitchMgr
