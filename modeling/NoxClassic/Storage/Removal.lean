/-
# Removed triggers are not invoked

The store with all its tables (`Store`), over whole runs.  `Triggers` says what the
functions of the rings do to the maps of one table; here an invariant follows each
trigger from its map through the queue to its invocation:

* a trigger is kept where the log says it was installed (`home`);
* a trigger that is not sticky is kept, waits in the queue or was invoked, and only one
  of these, once (`once`);
* once a removal has succeeded, the trigger is not kept, and what waits of it comes
  before the completion (`gone`).

The rings of a table that was dropped stay while messages for them wait, and such
messages may still fire triggers there; `Alive` says which tables can act.
-/

import NoxClassic.Storage.Triggers

namespace NoxClassic.Storage.Store

open Function List Option AList Nat Lib

/-- The table is there, or a message for its rings waits. -/
def Alive (s : Store) (k : ℕ) : Prop :=
  (∃ n, s.tables.lookup n = some k) ∨ ∃ m, (some k, m) ∈ s.queue

/-- The triggers kept at a place of an instance. -/
def triggersAt (s : Store) (k : ℕ) (p : Place) : TriggerMap ℕ :=
  (s.instances k).elim [] fun i => i.rings.triggers p

/-- The triggers that wait. -/
def fired (queue : List (Option ℕ × Msg)) : TriggerMap ℕ := queue.filterMap fun x => x.2.fired

/-- The number of the call that an event is about. -/
def caller : Event → ℕ
  | .putTrigger f _ _ _ => f
  | .removeTrigger c _ => c
  | .removed c _ => c
  | .invoked f => f

/-- The message completes the call `c` with success. -/
def Succeeds (c : ℕ) (m : Msg) : Prop := ∃ r, m.completes = some (c, r) ∧ r.code = .success

/-- No trigger is invoked after the completion of its removal. -/
def Reliable : List Event → Prop
  | [] => True
  | .invoked f :: log => Reliable log ∧ ∀ newer middle older c r tid k p,
      log = newer ++ .removed c r :: (middle ++ .removeTrigger c tid :: older) →
      r.code = .success → .putTrigger f k p tid ∉ older
  | _ :: log => Reliable log

/-- How often a trigger waits or was invoked. -/
def uses (s : Store) (f : ℕ) : ℕ :=
  ((fired s.queue).map Prod.snd).count f + s.log.count (.invoked f)

/-- What a removal of `tid` by the call `c`, made after the trigger `f` was installed, leaves when
it has succeeded: the trigger is not kept, and waits only before the completion. -/
structure Gone (s : Store) (c : ℕ) (tid : TriggerId) (f k : ℕ) (p : Place) : Prop where
  kept : (∃ x ∈ s.queue, Succeeds c x.2) → s.Alive k → (tid, f) ∉ s.triggersAt k p
  waits : s.queue.Pairwise fun x y => Succeeds c x.2 → ∀ t, y.2.fired ≠ some (t, f)
  completed : ∀ r, .removed c r ∈ s.log → r.code = .success →
    (s.Alive k → (tid, f) ∉ s.triggersAt k p) ∧ ∀ t, (t, f) ∉ fired s.queue

/-- What holds of the triggers in every state. -/
structure Tracked (s : Store) : Prop where
  own : ∀ k i, s.instances k = some i → i.rings.queue = [] ∧ Placed i.table i.rings
  home : ∀ k p x, x ∈ s.triggersAt k p → .putTrigger x.2 k p x.1 ∈ s.log
  calls : ∀ e ∈ s.log, caller e < s.calls
  unique : ∀ {f k p tid k' p' tid'}, .putTrigger f k p tid ∈ s.log →
    .putTrigger f k' p' tid' ∈ s.log → k = k' ∧ p = p' ∧ tid = tid'
  waiting : ∀ x ∈ fired s.queue, x.2 < s.calls
  pending : ∀ x ∈ s.queue, ∀ c, x.2.completes = some c → c.1 < s.calls
  once : ∀ f k p tid, .putTrigger f k p tid ∈ s.log → p ≠ .sticky →
    s.uses f ≤ 1 ∧ ((tid, f) ∈ s.triggersAt k p → s.uses f = 0)
  gone : ∀ newer c tid older f k p, s.log = newer ++ .removeTrigger c tid :: older →
    .putTrigger f k p tid ∈ older → Gone s c tid f k p
  reliable : Reliable s.log

variable {c f : ℕ} {m : Msg} {newer older : List Event} {queue : List (Option ℕ × Msg)} {s' : Store}
    {tid : TriggerId} {cb : Option ℕ} {p : Place} {ps : List Place}

section Tracked

variable {s : Store} {k : ℕ} {i : Instance} {r : Rings}

theorem triggersAt_of_some (hi : s.instances k = some i) (p : Place) :
    s.triggersAt k p = i.rings.triggers p := by
  unfold triggersAt
  rw [hi]
  rfl

theorem take_queue (s : Store) (k : ℕ) (i : Instance) (r : Rings) :
    (s.take k i r).queue = s.queue ++ r.queue.map fun m => (some k, m) := rfl

theorem mem_take {x : Option ℕ × Msg} (hx : x ∈ (s.take k i r).queue) :
    x ∈ s.queue ∨ ∃ m ∈ r.queue, x = (some k, m) :=
  (mem_append.1 hx).imp_right fun hx => by simpa [eq_comm] using hx

theorem fired_append (q q' : List (Option ℕ × Msg)) : fired (q ++ q') = fired q ++ fired q' :=
  filterMap_append

theorem fired_take (s : Store) (k : ℕ) (i : Instance) (r : Rings) :
    fired (s.take k i r).queue = fired s.queue ++ r.queue.filterMap Msg.fired := by
  rw [take_queue, fired_append]
  unfold fired
  rw [filterMap_map]
  rfl

theorem triggersAt_take (s : Store) (k : ℕ) (i : Instance) (r : Rings) (k' : ℕ) (p : Place) :
    (s.take k i r).triggersAt k' p = if k' = k then r.triggers p else s.triggersAt k' p := by
  unfold triggersAt take
  dsimp only
  rw [update_apply]
  split_ifs
  · cases p <;> rfl
  · rfl

theorem alive_of_take (hk : s.Alive k) {k' : ℕ} (h : (s.take k i r).Alive k') : s.Alive k' := by
  rcases h with h | ⟨m, hm⟩
  · exact .inl h
  rcases mem_take hm with hm | ⟨_, _, ⟨⟩⟩
  · exact .inr ⟨m, hm⟩
  · exact hk

/-- What the change of the rings of one instance may do to its triggers: those in `F` are posted,
and taken out unless they are sticky; `new` is one that is put in. -/
structure Moves (s : Store) (k : ℕ) (i : Instance) (r : Rings) : Prop where
  placed : Placed i.table r
  source : ∀ x ∈ r.queue.filterMap Msg.fired, ∃ p, x ∈ i.rings.triggers p
  nodup : ((r.queue.filterMap Msg.fired).map Prod.snd).Nodup
  kept : ∀ p x, x ∈ r.triggers p →
    (x ∈ i.rings.triggers p ∧ (p ≠ .sticky → x ∉ r.queue.filterMap Msg.fired)) ∨
    (r.queue.filterMap Msg.fired = [] ∧ .putTrigger x.2 k p x.1 ∈ s.log ∧ s.uses x.2 = 0 ∧
      ∀ newer c tid older k' p', s.log = newer ++ .removeTrigger c tid :: older →
        .putTrigger x.2 k' p' tid ∉ older)
  completes : ∀ m ∈ r.queue, ∀ c, m.completes = some c → c.1 < s.calls ∧
    (c.2.code = .success → ∀ tid, .removeTrigger c.1 tid ∈ s.log → r.queue = [m] ∧
      ∀ k' p f, s.Alive k' → .putTrigger f k' p tid ∈ s.log →
        (tid, f) ∉ (s.take k i r).triggersAt k' p)

/-- A trigger that an instance fires is where it was installed. -/
theorem Tracked.of_fired (h : Tracked s) (hi : s.instances k = some i) (hm : Moves s k i r)
    {x : TriggerId × ℕ} (hx : x ∈ r.queue.filterMap Msg.fired) :
    ∃ p, x ∈ s.triggersAt k p ∧ .putTrigger x.2 k p x.1 ∈ s.log := by
  obtain ⟨p, hp⟩ := hm.source x hx
  rw [← triggersAt_of_some hi] at hp
  exact ⟨p, hp, h.home k p x hp⟩

variable {k₀ : ℕ} {p₀ : Place} {e : Event}

/-- What is kept was kept before, or nothing is known of it yet. -/
theorem Moves.of_mem_take (hm : Moves s k i r) (hi : s.instances k = some i) {x : TriggerId × ℕ}
    (hx : x ∈ (s.take k i r).triggersAt k₀ p₀) : x ∈ s.triggersAt k₀ p₀ ∨
      .putTrigger x.2 k₀ p₀ x.1 ∈ s.log ∧ s.uses x.2 = 0 ∧
        ∀ newer c tid older k' p', s.log = newer ++ .removeTrigger c tid :: older →
          .putTrigger x.2 k' p' tid ∉ older := by
  rw [triggersAt_take] at hx
  split_ifs at hx with hk
  · subst hk
    rw [triggersAt_of_some hi]
    exact (hm.kept p₀ x hx).imp And.left And.right
  · exact .inl hx

section

variable (h : Tracked s)
include h

section

variable (hi : s.instances k = some i)
include hi

theorem Tracked.once_take (hm : Moves s k i r)
    (hput : .putTrigger f k₀ p₀ tid ∈ s.log) (hp0 : p₀ ≠ .sticky) :
    (s.take k i r).uses f ≤ 1 ∧
      ((tid, f) ∈ (s.take k i r).triggersAt k₀ p₀ → (s.take k i r).uses f = 0) := by
  obtain ⟨hone, hzero⟩ := h.once f k₀ p₀ tid hput hp0
  have huses : (s.take k i r).uses f =
      s.uses f + ((r.queue.filterMap Msg.fired).map Prod.snd).count f := by
    unfold uses
    rw [fired_take, map_append, count_append]
    show _ + _ + s.log.count _ = _
    omega
  by_cases hf : f ∈ (r.queue.filterMap Msg.fired).map Prod.snd
  · -- it is fired, so it was kept and neither waited nor was invoked
    obtain ⟨x, hx, rfl⟩ := mem_map.1 hf
    obtain ⟨p, hp, hlog⟩ := h.of_fired hi hm hx
    obtain ⟨rfl, rfl, rfl⟩ := h.unique hlog hput
    have hcount := nodup_iff_count_le_one.1 hm.nodup x.2
    have hz := hzero hp
    refine ⟨by omega, fun hx' => ?_⟩
    rw [triggersAt_take, if_pos rfl] at hx'
    rcases hm.kept p _ hx' with ⟨-, hnot⟩ | ⟨hnil, -⟩
    · exact absurd hx (hnot hp0)
    · rw [hnil] at hx
      nomatch hx
  · rw [huses, count_eq_zero_of_not_mem hf]
    exact ⟨hone, fun hx' => (hm.of_mem_take hi hx').elim hzero fun hnew => hnew.2.1⟩

theorem Tracked.gone_take (halive : s.Alive k)
    (hm : Moves s k i r) (hlog : s.log = newer ++ .removeTrigger c tid :: older)
    (hput : .putTrigger f k₀ p₀ tid ∈ older) : Gone (s.take k i r) c tid f k₀ p₀ := by
  have hg := h.gone newer c tid older f k₀ p₀ hlog hput
  have hrem : .removeTrigger c tid ∈ s.log := hlog ▸ mem_append_right _ mem_cons_self
  have hput' : .putTrigger f k₀ p₀ tid ∈ s.log := hlog ▸ mem_append_right _ (mem_cons_of_mem _ hput)
  -- the trigger is kept only if it was before
  have hkept (hx : (tid, f) ∈ (s.take k i r).triggersAt k₀ p₀) : (tid, f) ∈ s.triggersAt k₀ p₀ :=
    (hm.of_mem_take hi hx).resolve_right fun hnew => hnew.2.2 newer c tid older k₀ p₀ hlog hput
  -- and is fired only if it was kept
  have hfire : ∀ t, (t, f) ∈ r.queue.filterMap Msg.fired →
      s.Alive k₀ ∧ (tid, f) ∈ s.triggersAt k₀ p₀ := by
    intro t ht
    obtain ⟨p, hp, hlog'⟩ := h.of_fired hi hm ht
    obtain ⟨rfl, rfl, rfl⟩ := h.unique hlog' hput'
    exact ⟨halive, hp⟩
  refine ⟨?_, ?_, fun res hres hcode => ?_⟩
  · rintro ⟨x, hx, res, hcomp, hcode⟩ hal hmem
    rcases mem_take hx with hx | ⟨m, hm', rfl⟩
    · exact hg.kept ⟨x, hx, res, hcomp, hcode⟩ (alive_of_take halive hal) (hkept hmem)
    · obtain ⟨-, hdone⟩ := hm.completes m hm' _ hcomp
      exact (hdone hcode tid hrem).2 k₀ p₀ f (alive_of_take halive hal) hput' hmem
  · rw [take_queue, pairwise_append]
    refine ⟨hg.waits, ?_, fun x hx y hy hsucc t ht => ?_⟩
    · rw [pairwise_map]
      by_cases hex : ∃ m ∈ r.queue, Succeeds c m
      · obtain ⟨m, hm', res, hcomp, hcode⟩ := hex
        obtain ⟨-, hdone⟩ := hm.completes m hm' _ hcomp
        rw [(hdone hcode tid hrem).1]
        exact pairwise_singleton _ _
      · exact pairwise_of_forall_mem_list fun m hm' _ _ hsucc => absurd ⟨m, hm', hsucc⟩ hex
    · obtain ⟨m, hm', rfl⟩ := mem_map.1 hy
      obtain ⟨hal, hmem⟩ := hfire t (mem_filterMap.2 ⟨m, hm', ht⟩)
      exact hg.kept ⟨x, hx, hsucc⟩ hal hmem
  · obtain ⟨hnot, hwait⟩ := hg.completed res hres hcode
    refine ⟨fun hal hmem => hnot (alive_of_take halive hal) (hkept hmem), fun t ht => ?_⟩
    rw [fired_take, mem_append] at ht
    rcases ht with ht | ht
    · exact hwait t ht
    · obtain ⟨hal, hmem⟩ := hfire t ht
      exact hnot hal hmem

/-- **The rings of an instance change.** -/
theorem Tracked.take (halive : s.Alive k)
    (hm : Moves s k i r) : Tracked (s.take k i r) := by
  refine ⟨fun k' i' hi' => ?_, fun k' p x hx => ?_, h.calls, h.unique, fun x hx => ?_,
    fun x hx c hc => ?_, fun f k₀ p₀ tid hput hp0 => h.once_take hi hm hput hp0,
    fun newer c tid older f k₀ p₀ hlog hput => h.gone_take hi halive hm hlog hput, h.reliable⟩
  · replace hi' : update s.instances k (some { i with rings := { r with queue := [] } })
        k' = some i' := hi'
    rw [update_apply] at hi'
    split_ifs at hi'
    · cases hi'
      refine ⟨rfl, fun p ref ts hkept => hm.placed p ref ts ?_⟩
      cases p <;> exact hkept
    · exact h.own k' i' hi'
  · exact (hm.of_mem_take hi hx).elim (h.home k' p x) And.left
  · rw [fired_take, mem_append] at hx
    rcases hx with hx | hx
    · exact h.waiting x hx
    · obtain ⟨p, -, hlog⟩ := h.of_fired hi hm hx
      exact h.calls _ hlog
  · rcases mem_take hx with hx | ⟨m, hm', rfl⟩
    · exact h.pending x hx c hc
    · exact (hm.completes m hm' c hc).1

end

/-- A call that has not been made was not noted. -/
theorem Tracked.uses_fresh (hf : s.calls ≤ f) : s.uses f = 0 := by
  have hwait : f ∉ (fired s.queue).map Prod.snd := by
    intro hmem
    obtain ⟨x, hx, rfl⟩ := mem_map.1 hmem
    have := h.waiting x hx
    omega
  have hlog : .invoked f ∉ s.log := fun hmem => by
    have : f < s.calls := h.calls _ hmem
    omega
  unfold uses
  rw [count_eq_zero_of_not_mem hwait, count_eq_zero_of_not_mem hlog]

/-- A call that installs or removes a trigger is made, and noted. -/
theorem Tracked.log
    (hkind : (∃ k p tid, e = .putTrigger s.calls k p tid) ∨ ∃ tid, e = .removeTrigger s.calls tid) :
    Tracked { s with calls := s.calls + 1, log := e :: s.log } := by
  obtain ⟨he, hinvoked, hremoved⟩ :
      caller e = s.calls ∧ (∀ f, e ≠ .invoked f) ∧ ∀ c r, e ≠ .removed c r := by
    rcases hkind with ⟨_, _, _, rfl⟩ | ⟨_, rfl⟩ <;> exact ⟨rfl, nofun, nofun⟩
  have huses : ∀ f, uses { s with calls := s.calls + 1, log := e :: s.log } f = s.uses f := by
    intro f
    unfold uses
    rw [count_cons_of_ne (hinvoked f)]
  have hold : ∀ {f k p tid}, .putTrigger f k p tid ∈ s.log → f < s.calls := h.calls _
  refine ⟨h.own, fun k p x hx => mem_cons_of_mem _ (h.home k p x hx), fun e' he' => ?_, ?_,
    fun x hx => (h.waiting x hx).trans (Nat.lt_succ_self _),
    fun x hx c hc => (h.pending x hx c hc).trans (Nat.lt_succ_self _), ?_, ?_, ?_⟩
  · rcases mem_cons.1 he' with rfl | he'
    · exact he ▸ Nat.lt_succ_self _
    · exact (h.calls e' he').trans (Nat.lt_succ_self _)
  · intro f k p tid k' p' tid' hput hput'
    have hnew : ∀ {f k p tid}, .putTrigger f k p tid = e → f = s.calls := fun heq =>
      (congrArg caller heq).trans he
    rcases mem_cons.1 hput with heq | hmem
    · rcases mem_cons.1 hput' with heq' | hmem'
      · obtain ⟨-, rfl, rfl, rfl⟩ := Event.putTrigger.inj (heq.trans heq'.symm)
        exact ⟨rfl, rfl, rfl⟩
      · exact absurd (hold hmem') (Nat.not_lt_of_le (hnew heq).ge)
    · rcases mem_cons.1 hput' with heq' | hmem'
      · exact absurd (hold hmem) (Nat.not_lt_of_le (hnew heq').ge)
      · exact h.unique hmem hmem'
  · intro f k p tid hput hp
    rw [huses]
    rcases mem_cons.1 hput with rfl | hput
    · have hzero := h.uses_fresh (f := f) (Nat.le_of_eq he.symm)
      exact ⟨by omega, fun _ => hzero⟩
    · exact h.once f k p tid hput hp
  · intro newer c tid older f k p hlog hput
    cases newer with
    | nil =>
      -- the completion of this call is not there yet
      obtain ⟨rfl, rfl⟩ := cons.inj hlog
      obtain rfl : c = s.calls := he
      refine ⟨?_, ?_, fun r hr _ => ?_⟩
      · rintro ⟨x, hx, r, hc, -⟩
        exact absurd (h.pending x hx _ hc) (Nat.lt_irrefl _)
      · refine pairwise_of_forall_mem_list fun x hx y _ hsucc => ?_
        obtain ⟨r, hc, -⟩ := hsucc
        exact absurd (h.pending x hx _ hc) (Nat.lt_irrefl _)
      · rcases mem_cons.1 hr with heq | hr
        · exact Event.noConfusion heq
        · exact absurd (h.calls _ hr) (Nat.lt_irrefl _)
    | cons e' newer =>
      obtain ⟨-, hrest⟩ := cons.inj hlog
      have hg := h.gone newer c tid older f k p hrest hput
      refine ⟨hg.kept, hg.waits, fun r hr hcode => ?_⟩
      rcases mem_cons.1 hr with heq | hr
      · exact absurd heq.symm (hremoved c r)
      · exact hg.completed r hr hcode
  · rcases hkind with ⟨_, _, _, rfl⟩ | ⟨_, rfl⟩ <;> exact h.reliable

omit h in
theorem mem_of_mem_reply {m' : Msg} (hm' : (some k, m') ∈ (s.reply m).queue) :
    (some k, m') ∈ s.queue :=
  (mem_append.1 hm').resolve_right fun hm' => nomatch congrArg Prod.fst (mem_singleton.1 hm')

/-- No trigger is touched: calls are made, answers are posted that tell of no success, and the set
of tables changes, where no table comes to life but new ones, which keep no trigger. -/
theorem Tracked.retable (hlog : s'.log = s.log) (hcalls : s.calls ≤ s'.calls)
    (hs' : s'.queue = s.queue ++ queue) (hqueue : ∀ x ∈ queue, x.2.fired = none ∧
      ∀ c, x.2.completes = some c → c.1 < s'.calls ∧ c.2.code ≠ .success)
    (hown : ∀ k i, s'.instances k = some i → s.instances k = some i ∨
      (i.rings.queue = [] ∧ Placed i.table i.rings))
    (htriggers : ∀ k p, s'.triggersAt k p = s.triggersAt k p)
    (halive : ∀ k, s'.Alive k → s.Alive k ∨ ∀ p, s.triggersAt k p = []) : Tracked s' := by
  have hfire : fired s'.queue = fired s.queue := by
    have hnil : fired queue = [] := filterMap_eq_nil_iff.2 fun x hx => (hqueue x hx).1
    rw [hs', fired_append, hnil, append_nil]
  have huses (f : ℕ) : s'.uses f = s.uses f := by
    unfold uses
    rw [hfire, hlog]
  refine ⟨fun k i hi => (hown k i hi).elim (h.own k i) id, fun k p x hx => ?_, fun e he => ?_,
    hlog ▸ h.unique, fun x hx => ?_, fun x hx c hc => ?_, fun f k p tid hput hp => ?_,
    fun newer c tid older f k p heq hput => ?_, hlog ▸ h.reliable⟩
  · exact hlog ▸ h.home k p x (htriggers k p ▸ hx)
  · exact (h.calls e (hlog ▸ he)).trans_le hcalls
  · exact (h.waiting x (hfire ▸ hx)).trans_le hcalls
  · rw [hs', mem_append] at hx
    rcases hx with hx | hx
    · exact (h.pending x hx c hc).trans_le hcalls
    · exact ((hqueue x hx).2 c hc).1
  · rw [huses, htriggers]
    exact h.once f k p tid (hlog ▸ hput) hp
  have hg := h.gone newer c tid older f k p (hlog ▸ heq) hput
  have hkept {P : Prop} (hnot : P → s.Alive k → (tid, f) ∉ s.triggersAt k p) (hP : P)
      (hal : s'.Alive k) : (tid, f) ∉ s'.triggersAt k p := by
    rw [htriggers]
    rcases halive k hal with hal | hnil
    · exact hnot hP hal
    · rw [hnil p]
      exact not_mem_nil
  refine ⟨fun hsucc => hkept hg.kept ?_, ?_, fun r hr hcode => ?_⟩
  · obtain ⟨x, hx, r, hc, hcode⟩ := hsucc
    rw [hs', mem_append] at hx
    exact ⟨x, hx.resolve_right fun hx => ((hqueue x hx).2 _ hc).2 hcode, r, hc, hcode⟩
  · rw [hs', pairwise_append]
    refine ⟨hg.waits, pairwise_of_forall_mem_list ?_, ?_⟩
    all_goals exact fun x _ y hy _ t ht => nomatch (hqueue y hy).1.symm.trans ht
  · obtain ⟨hnot, hwait⟩ := hg.completed r (hlog ▸ hr) hcode
    exact ⟨hkept (fun _ => hnot) True.intro, hfire ▸ hwait⟩

/-- A call is made. -/
theorem Tracked.tick : Tracked { s with calls := s.calls + 1 } :=
  h.retable rfl (le_succ _) (append_nil _).symm (forall_mem_nil _) (fun _ _ => .inl)
    (fun _ _ => rfl) fun _ => .inl

/-- The storage itself posts an answer. -/
theorem Tracked.reply (hfired : m.fired = none)
    (hcomp : ∀ c, m.completes = some c → c.1 < s.calls ∧ c.2.code ≠ .success) :
    Tracked (s.reply m) :=
  h.retable rfl le_rfl rfl (fun _ hx => mem_singleton.1 hx ▸ ⟨hfired, hcomp⟩) (fun _ _ => .inl)
    (fun _ _ => rfl) fun _ => .inl ∘ Or.imp_right fun ⟨m', hm'⟩ => ⟨m', mem_of_mem_reply hm'⟩

end

/-- What a delivery tells is an invocation or a completion. -/
theorem told_eq_some (h : told m = some e) :
    (∃ x, m.fired = some x ∧ e = .invoked x.2) ∨
      ∃ c, m.completes = some c ∧ e = .removed c.1 c.2 := by
  cases m with
  | trigger f tid row reason => exact .inl ⟨(tid, f), rfl, (some.inj h).symm⟩
  | removeReply cb result =>
    cases cb with
    | none => nomatch h
    | some c => exact .inr ⟨(c, result), rfl, (some.inj h).symm⟩
  | _ => nomatch h

theorem count_told (m : Msg) (f : ℕ) :
    ((told m).toList).count (.invoked f) = (m.fired.toList.map Prod.snd).count f := by
  cases m with
  | trigger g tid row reason =>
    show count _ [Event.invoked g] = count _ [g]
    by_cases hg : g = f
    · subst hg
      rw [count_singleton_self, count_singleton_self]
    · rw [count_eq_zero_of_not_mem, count_eq_zero_of_not_mem]
      · exact fun h => hg (mem_singleton.1 h).symm
      · exact fun h => hg (Event.invoked.inj (mem_singleton.1 h)).symm
  | removeReply cb result =>
    cases cb with
    | none => rfl
    | some c => exact count_eq_zero_of_not_mem fun h =>
      Event.noConfusion (mem_singleton.1 h)
  | _ => rfl

/-- A message is taken from the queue. -/
theorem Tracked.pop (h : Tracked s) {o : Option ℕ} (hqueue : s.queue = (o, m) :: queue) :
    Tracked { s with queue, log := (told m).toList ++ s.log } := by
  have hsub : ∀ x ∈ queue, x ∈ s.queue := fun x hx => hqueue ▸ mem_cons_of_mem _ hx
  have hfire : fired s.queue = m.fired.toList ++ fired queue := by
    unfold fired
    rw [hqueue, filterMap_cons]
    cases m.fired <;> rfl
  have halive (k : ℕ) : Alive { s with queue, log := (told m).toList ++ s.log } k → s.Alive k :=
    Or.imp_right fun ⟨m', hm'⟩ => ⟨m', hsub _ hm'⟩
  -- the event is of a call that was made, and only an invocation or a completion
  have htold : ∀ e, told m = some e → caller e < s.calls ∧
      (∀ f k p tid, e ≠ .putTrigger f k p tid) ∧ ∀ c tid, e ≠ .removeTrigger c tid := by
    intro e he
    rcases told_eq_some he with ⟨x, hx, rfl⟩ | ⟨c, hc, rfl⟩
    · refine ⟨h.waiting x ?_, nofun, nofun⟩
      rw [hfire, hx]
      exact mem_cons_self
    · exact ⟨h.pending _ (hqueue ▸ mem_cons_self) c hc, nofun, nofun⟩
  have huses : ∀ f, uses { s with queue, log := (told m).toList ++ s.log } f = s.uses f := by
    intro f
    unfold uses
    dsimp only
    rw [hfire, map_append, count_append, count_append, count_told]
    omega
  have hlogs {e : Event} (he : e ∈ (told m).toList ++ s.log) : told m = some e ∨ e ∈ s.log :=
    (mem_append.1 he).imp_left mem_toList.1
  have hput : ∀ {f k p tid}, .putTrigger f k p tid ∈ (told m).toList ++ s.log →
      .putTrigger f k p tid ∈ s.log := fun hmem =>
    (hlogs hmem).resolve_left fun he => (htold _ he).2.1 _ _ _ _ rfl
  refine ⟨h.own, fun k p x hx => mem_append_right _ (h.home k p x hx), fun e he => ?_,
    fun h1 h2 => h.unique (hput h1) (hput h2), fun x hx => ?_,
    fun x hx => h.pending x (hsub x hx), fun f k p tid hmem hp => ?_,
    fun newer c tid older f k p hlog hmem => ?_, ?_⟩
  · exact (hlogs he).elim (fun he => (htold e he).1) (h.calls e)
  · exact h.waiting x (hfire ▸ mem_append_right _ hx)
  · rw [huses]
    exact h.once f k p tid (hput hmem) hp
  · obtain ⟨newer', hlog'⟩ : ∃ newer', s.log = newer' ++ .removeTrigger c tid :: older := by
      cases he : told m with rw [he] at hlog
      | none => exact ⟨newer, hlog⟩
      | some e =>
        cases newer with
        | nil => exact absurd (cons.inj hlog).1 ((htold e he).2.2 c tid)
        | cons _ newer => exact ⟨newer, (cons.inj hlog).2⟩
    have hg := h.gone newer' c tid older f k p hlog' hmem
    have hwaits := hg.waits
    rw [hqueue, pairwise_cons] at hwaits
    refine ⟨?_, hwaits.2, fun r hr hcode => ?_⟩
    · rintro ⟨x, hx, hsucc⟩ hal
      exact hg.kept ⟨x, hsub x hx, hsucc⟩ (halive k hal)
    rcases hlogs hr with he | hr
    · -- the completion itself: what waits of the trigger came before it
      rcases told_eq_some he with ⟨x, -, heq⟩ | ⟨c', hc', heq⟩
      · exact Event.noConfusion heq
      obtain ⟨rfl, rfl⟩ := Event.removed.inj heq
      have hsucc : Succeeds c'.1 m := ⟨c'.2, hc', hcode⟩
      refine ⟨fun hal => hg.kept ⟨(o, m), hqueue ▸ mem_cons_self, hsucc⟩ (halive k hal),
        fun t ht => ?_⟩
      obtain ⟨y, hy, hyf⟩ := mem_filterMap.1 ht
      exact hwaits.1 y hy hsucc t hyf
    · obtain ⟨hkept, hwait⟩ := hg.completed r hr hcode
      exact ⟨fun hal => hkept (halive k hal), fun t ht => hwait t (hfire ▸ mem_append_right _ ht)⟩
  · cases he : told m with
    | none => exact h.reliable
    | some e =>
      rcases told_eq_some he with ⟨x, hx, rfl⟩ | ⟨c, -, rfl⟩
      · refine ⟨h.reliable, fun newer middle older c r tid k p hlog hcode hmem => ?_⟩
        -- the trigger waited, so that no removal of it was completed
        replace hlog : s.log = newer ++ .removed c r :: (middle ++ .removeTrigger c tid :: older) :=
          hlog
        have hlog' : s.log = (newer ++ .removed c r :: middle) ++
            .removeTrigger c tid :: older := by
          rw [hlog, append_assoc]
          rfl
        have hr : .removed c r ∈ s.log := hlog ▸ mem_append_right _ mem_cons_self
        refine ((h.gone _ c tid older x.2 k p hlog' hmem).completed r hr hcode).2 x.1 ?_
        rw [hfire, hx]
        exact mem_cons_self
      · exact h.reliable

end Tracked

/-! ### The steps of an instance -/

section Moves

variable {s : Store} {k : ℕ} {i : Instance} {r : Rings}

/-- The functions that fire are different, as each was installed at one place. -/
theorem Tracked.nodup_fired (h : Tracked s) (hi : s.instances k = some i)
    (hps : ps.Nodup) : ((ps.flatMap i.rings.triggers).map Prod.snd).Nodup := by
  have hplace : ∀ {p p' : Place} {x x' : TriggerId × ℕ}, x ∈ i.rings.triggers p →
      x' ∈ i.rings.triggers p' → x.2 = x'.2 → p = p' ∧ x = x' := by
    intro p p' x x' hx hx' heq
    rw [← triggersAt_of_some hi] at hx hx'
    have hlog' := h.home k p' x' hx'
    rw [← heq] at hlog'
    obtain ⟨-, hp, htid⟩ := h.unique (h.home k p x hx) hlog'
    exact ⟨hp, Prod.ext htid heq⟩
  have hsorted : ∀ p, (i.rings.triggers p).Nodup := by
    refine fun p => ((h.own k i hi).2.sorted p).imp ?_
    rintro x y hlt rfl
    exact lt_irrefl _ hlt
  refine List.Nodup.map_on (fun x hx x' hx' heq => ?_) ?_
  · obtain ⟨p, -, hp⟩ := mem_flatMap.1 hx
    obtain ⟨p', -, hp'⟩ := mem_flatMap.1 hx'
    exact (hplace hp hp' heq).2
  · refine nodup_flatMap.2 ⟨fun p _ => hsorted p, hps.imp fun hne x hx hx' => ?_⟩
    exact hne (hplace hx hx' rfl).1

/-- A step that fires triggers, for a call that is not a removal of a trigger. -/
theorem Tracked.moves_of_fires (h : Tracked s) (hi : s.instances k = some i)
    (hf : Fires cb i.table i.rings r ps)
    (hcb : ∀ c, cb = some c → c < s.calls ∧ ∀ tid, .removeTrigger c tid ∉ s.log) :
    Moves s k i r := by
  obtain ⟨ms, hqueue, hfired, hcomp⟩ := hf.queue
  rw [(h.own k i hi).1, nil_append] at hqueue
  rw [← hqueue] at hfired hcomp
  refine ⟨hf.placed, fun x hx => ?_, ?_, fun p x hx => .inl ?_, fun m hm c hc => ?_⟩
  · rw [hfired] at hx
    obtain ⟨p, -, hp⟩ := mem_flatMap.1 hx
    exact ⟨p, hp⟩
  · rw [hfired]
    exact h.nodup_fired hi hf.nodup
  · rw [hf.triggers] at hx
    unfold clear at hx
    split_ifs at hx with hp
    · nomatch hx
    refine ⟨hx, fun hne hmem => hp ⟨?_, hne⟩⟩
    rw [hfired] at hmem
    obtain ⟨q, hq, hxq⟩ := mem_flatMap.1 hmem
    rw [← triggersAt_of_some hi] at hx hxq
    obtain ⟨-, rfl, -⟩ := h.unique (h.home k p x hx) (h.home k q x hxq)
    exact hq
  · obtain ⟨hlt, hnot⟩ := hcb c.1 (hcomp m hm c hc)
    exact ⟨hlt, fun _ tid hmem => absurd hmem (hnot tid)⟩

/-- A trigger is installed, and noted. -/
theorem Tracked.moves_of_arms (h : Tracked s) (hi : s.instances k = some i)
    (ha : Arms i.table i.rings r p s.calls) : ∃ result tid,
      r.queue = [.putTriggerReply s.calls result tid] ∧
      ∀ s1 : Store, s1 = { s with
        calls := s.calls + 1
        log := (installed k p (.putTriggerReply s.calls result tid)).toList ++ s.log } →
      Moves s1 k i r := by
  obtain ⟨result, tid, hqueue, hmem⟩ := ha.posted
  rw [(h.own k i hi).1, nil_append] at hqueue
  refine ⟨result, tid, hqueue, ?_⟩
  rintro s1 rfl
  have hfired : r.queue.filterMap Msg.fired = [] := by
    rw [hqueue]
    rfl
  refine ⟨ha.placed, by simp [hfired], by simp [hfired], fun q x hx => ?_, fun m hm c hc => ?_⟩
  · rcases hmem q x hx with hold | ⟨hcode, rfl, rfl⟩
    · exact .inl ⟨hold, by simp [hfired]⟩
    -- the new trigger: nothing is known of it yet
    have hnew : installed k q (.putTriggerReply s.calls result tid) =
        some (.putTrigger s.calls k q tid) := by
      obtain ⟨code, message⟩ := result
      obtain rfl : code = .success := hcode
      rfl
    rw [hnew]
    refine .inr ⟨hfired, mem_cons_self, ?_, fun newer c tid' older k' p' hlog hput => ?_⟩
    · have hzero := h.uses_fresh (f := s.calls) le_rfl
      unfold uses at hzero ⊢
      rwa [toList_some, singleton_append, count_cons_of_ne fun heq => Event.noConfusion heq]
    · cases newer with
      | nil => exact Event.noConfusion (cons.inj hlog).1
      | cons _ newer =>
        have hrest : s.log = newer ++ .removeTrigger c tid' :: older := (cons.inj hlog).2
        have hold : .putTrigger s.calls k' p' tid' ∈ s.log :=
          hrest ▸ mem_append_right _ (mem_cons_of_mem _ hput)
        exact absurd (h.calls _ hold) (lt_irrefl _)
  · rw [hqueue, mem_singleton] at hm
    subst hm
    nomatch hc

end Moves

/-! ### The names of the rings -/

/-- The tables that can act have names of their own for their rings. -/
structure Named (s : Store) : Prop where
  table : ∀ n k, s.tables.lookup n = some k → ∃ i, s.instances k = some i ∧ i.table.name = n
  index : ∀ n k, s.indexDhts.lookup n = some k → ∃ i, s.instances k = some i ∧
    n ∈ i.table.indices ∧ ∃ m, s.tables.lookup m = some k
  known : ∀ k m, (some k, m) ∈ s.queue → ∃ i, s.instances k = some i
  below : ∀ k i, s.instances k = some i → k < s.next
  name : ∀ k i, s.instances k = some i → i.table.name ∉ i.table.indices
  apart : ∀ k k' i i' n, s.Alive k → s.Alive k' → s.instances k = some i →
    s.instances k' = some i' → n ∈ i.names → n ∈ i'.names → k = k'

section Named

variable {s : Store} {k : ℕ} {i : Instance} {r : Rings}

/-- The ring of a trigger is one of the table. -/
theorem ring_mem_names {t : Table} {q : Rings} (hi : Placed t q)
    (hx : (tid, f) ∈ q.triggers p) : tid.ring ∈ t.name :: t.indices.keys := by
  obtain ⟨-, hring, -, -⟩ := hi.id hx
  rw [hring]
  cases p with
  | index n g =>
    obtain ⟨r, -, hat⟩ := hi.of_mem hx
    exact mem_cons_of_mem _ (mem_keys.1 (hat.index n g rfl (ne_nil_of_mem hx)))
  | content | sticky | nonsticky => exact mem_cons_self

/-- A removal of a trigger by the ring that its id names. -/
theorem Tracked.moves_of_takes (h : Tracked s) (hn : Named s)
    (hk : (s.indexDhts.lookup tid.ring).or (s.tables.lookup tid.ring) = some k)
    (hi : s.instances k = some i) (ht : Takes i.table i.rings r tid s.calls) :
    Moves { s with calls := s.calls + 1, log := .removeTrigger s.calls tid :: s.log } k i r := by
  obtain ⟨result, hqueue, hgone⟩ := ht.posted
  rw [(h.own k i hi).1, nil_append] at hqueue
  have hfired : r.queue.filterMap Msg.fired = [] := by
    rw [hqueue]
    rfl
  -- the ring that was found is there, under the name in the id
  obtain ⟨hlive, hname⟩ : s.Alive k ∧ tid.ring ∈ i.names := by
    rcases or_eq_some_iff.1 hk with hk | ⟨-, hk⟩
    · obtain ⟨i', hi', hmem, hlive⟩ := hn.index _ k hk
      obtain rfl := some.inj (hi.symm.trans hi')
      exact ⟨.inl hlive, mem_cons_of_mem _ (mem_keys.1 hmem)⟩
    · obtain ⟨i', hi', hmem⟩ := hn.table _ k hk
      obtain rfl := some.inj (hi.symm.trans hi')
      exact ⟨.inl ⟨_, hk⟩, hmem ▸ mem_cons_self⟩
  refine ⟨ht.placed, by simp [hfired], by simp [hfired],
    fun p x hx => .inl ⟨(ht.sublist p).subset hx, by simp [hfired]⟩, fun m hm c hc => ?_⟩
  · rw [hqueue, mem_singleton] at hm
    subst hm
    cases hc
    refine ⟨lt_succ_self _, fun hcode tid' hmem => ⟨hqueue, fun k' p f hal _ hx => ?_⟩⟩
    have htid : tid' = tid := by
      rcases mem_cons.1 hmem with heq | hmem
      · exact (Event.removeTrigger.inj heq).2
      · exact absurd (h.calls _ hmem) (lt_irrefl _)
    subst htid
    rw [triggersAt_take] at hx
    split_ifs at hx with hk'
    · exact hgone hcode p f hx
    -- another table that can act would have a ring of this name
    refine hk' ?_
    cases hi' : s.instances k' with
    | none =>
      unfold triggersAt at hx
      rw [hi'] at hx
      nomatch hx
    | some i' =>
      replace hx : (tid', f) ∈ s.triggersAt k' p := hx
      rw [triggersAt_of_some hi'] at hx
      exact hn.apart k' k i' i tid'.ring hal hlive hi' hi
        (ring_mem_names (h.own k' i' hi').2 hx) hname

theorem map_table_take (hi : s.instances k = some i) (r : Rings) (k' : ℕ) :
    ((s.take k i r).instances k').map Instance.table = (s.instances k').map Instance.table := by
  unfold take
  dsimp only
  rw [update_apply]
  split_ifs with hk
  · rw [hk, hi]
    rfl
  · rfl

theorem Named.take (h : Named s) (hi : s.instances k = some i) (halive : s.Alive k) :
    Named (s.take k i r) := by
  have htable := map_table_take hi r
  have hinst (k' : ℕ) (i' : Instance) (hi' : (s.take k i r).instances k' = some i') :
      ∃ i0, s.instances k' = some i0 ∧ i0.table = i'.table :=
    map_eq_some_iff.1 ((htable k').symm.trans (congrArg (Option.map _) hi'))
  have hback (k' : ℕ) (i' : Instance) (hi' : s.instances k' = some i') :
      ∃ i1, (s.take k i r).instances k' = some i1 ∧ i1.table = i'.table :=
    map_eq_some_iff.1 ((htable k').trans (congrArg (Option.map _) hi'))
  refine ⟨fun n k' hk' => ?_, fun n k' hk' => ?_, fun k' m hm => ?_, fun k' i' hi' => ?_,
    fun k' i' hi' => ?_, fun k1 k2 i1 i2 n hal1 hal2 hi1 hi2 hn1 hn2 => ?_⟩
  · obtain ⟨i', hi', hname⟩ := h.table n k' hk'
    obtain ⟨i1, hi1, ht⟩ := hback k' i' hi'
    exact ⟨i1, hi1, ht ▸ hname⟩
  · obtain ⟨i', hi', hmem, hlive⟩ := h.index n k' hk'
    obtain ⟨i1, hi1, ht⟩ := hback k' i' hi'
    exact ⟨i1, hi1, ht ▸ hmem, hlive⟩
  · obtain ⟨i', hi'⟩ : ∃ i', s.instances k' = some i' := by
      rcases mem_take hm with hm | ⟨_, _, ⟨⟩⟩
      · exact h.known k' m hm
      · exact ⟨i, hi⟩
    obtain ⟨i1, hi1, -⟩ := hback k' i' hi'
    exact ⟨i1, hi1⟩
  · obtain ⟨i0, hi0, -⟩ := hinst k' i' hi'
    exact h.below k' i0 hi0
  · obtain ⟨i0, hi0, ht⟩ := hinst k' i' hi'
    exact ht ▸ h.name k' i0 hi0
  · obtain ⟨j1, hj1, ht1⟩ := hinst k1 i1 hi1
    obtain ⟨j2, hj2, ht2⟩ := hinst k2 i2 hi2
    unfold Instance.names at hn1 hn2
    rw [← ht1] at hn1
    rw [← ht2] at hn2
    exact h.apart k1 k2 j1 j2 n (alive_of_take halive hal1) (alive_of_take halive hal2) hj1 hj2
      hn1 hn2

/-- The tables stay, and no message is added. -/
theorem Named.of_queue (h : Named s) {calls : ℕ}
    {log : List Event} (hq : ∀ k m, (some k, m) ∈ queue → (some k, m) ∈ s.queue) :
    Named { s with queue, calls, log } := by
  have halive : ∀ k, Alive { s with queue, calls, log } k → s.Alive k :=
    fun k => Or.imp_right fun ⟨m, hm⟩ => ⟨m, hq k m hm⟩
  exact ⟨h.table, h.index, fun k m hm => h.known k m (hq k m hm), h.below, h.name,
    fun k k' i i' n hal hal' => h.apart k k' i i' n (halive k hal) (halive k' hal')⟩

theorem Named.reply (h : Named s) (m : Msg) : Named (s.reply m) :=
  h.of_queue fun _ _ => mem_of_mem_reply

variable {indices : List Index} {new : Instance}

theorem ringName_ne_self (table index : String) : Catalog.ringName table index ≠ table := by
  intro h
  have hlen : (table ++ "_" ++ index).length = table.length := congrArg String.length h
  rw [String.length_append, String.length_append, show "_".length = 1 from rfl] at hlen
  omega

/-- A table is created only when no ring that lives or has messages waiting has the name of one of
its rings. -/
def Fresh (s : Store) : Act → Prop
  | .createTable table _ indices => table ∈ s.tables ∨ ∀ k i, s.Alive k → s.instances k = some i →
      ∀ n ∈ table :: indices.map fun j => Catalog.ringName table j.name, n ∉ i.names
  | _ => True

/-- What holds in every state. -/
structure Inv (s : Store) : Prop where
  named : Named s
  tracked : Tracked s

theorem inv_empty : Inv empty := by
  have hnone {α : Type} {a : α} {P : Prop} (h : a ∈ []) : P := nomatch h
  refine ⟨⟨nofun, nofun, fun _ _ h => hnone h, nofun, nofun, fun k k' i i' n _ _ => nofun⟩,
    ⟨nofun, fun _ _ _ h => hnone h, fun _ h => hnone h, fun h => hnone h, fun _ h => hnone h,
      fun _ h => hnone h, fun _ _ _ _ h => hnone h, ?_, trivial⟩⟩
  exact fun newer c tid older f k p h => absurd h.symm (by simp [empty])

/-- The instances of a storage with one more table. -/
theorem instances_added {k : ℕ} {i : Instance}
    (hi : update s.instances s.next (some new) k = some i) :
    (k = s.next ∧ i = new) ∨ s.instances k = some i := by
  rw [update_apply] at hi
  split_ifs at hi with hk
  · exact .inl ⟨hk, (some.inj hi).symm⟩
  · exact .inr hi

variable {table : String} {names : List String}

theorem alive_added {k : ℕ} (hk : (s.added table new names).Alive k) : k = s.next ∨ s.Alive k := by
  rcases hk with ⟨n, hn⟩ | hk
  · replace hn : (s.tables.insert table s.next).lookup n = some k := hn
    by_cases heq : n = table
    · subst heq
      rw [lookup_insert] at hn
      exact .inl (some.inj hn).symm
    · rw [lookup_insert_ne heq] at hn
      exact .inr (.inl ⟨n, hn⟩)
  · exact .inr (.inr hk)

theorem Named.instances_next (h : Named s) : s.instances s.next = none := by
  cases hi : s.instances s.next with
  | none => rfl
  | some i => exact absurd (h.below _ i hi) (lt_irrefl _)

theorem Named.added (h : Named s) (new : Instance)
    (hname : new.table.name = table) (hindices : ∀ n, n ∈ new.table.indices ↔ n ∈ names)
    (hne : table ∉ names) (hthere : table ∉ s.tables)
    (hfresh : ∀ k i, s.Alive k → s.instances k = some i → ∀ n ∈ table :: names, n ∉ i.names) :
    Named (s.added table new names) := by
  have hback : ∀ k i, s.instances k = some i → (s.added table new names).instances k = some i := by
    intro k i hi
    refine (update_of_ne ?_ _ _).trans hi
    rintro rfl
    nomatch h.instances_next.symm.trans hi
  have hself : (s.added table new names).instances s.next = some new := update_self _ _ _
  have hlive : ∀ m k, s.tables.lookup m = some k →
      (s.added table new names).tables.lookup m = some k := by
    intro m k hk
    refine (lookup_insert_ne ?_).trans hk
    rintro rfl
    exact hthere (AList.lookup_isSome.1 (hk ▸ rfl))
  have hnames : ∀ n, n ∈ new.names → n ∈ table :: names := by
    intro n hn
    rcases mem_cons.1 hn with rfl | hn
    · exact hname ▸ mem_cons_self
    · exact mem_cons_of_mem _ ((hindices n).1 (mem_keys.2 hn))
  refine ⟨fun n k hk => ?_, fun n k hk => ?_, fun k m hm => ?_, fun k i hi => ?_, fun k i hi => ?_,
    fun k1 k2 i1 i2 n hal1 hal2 hi1 hi2 hn1 hn2 => ?_⟩
  · replace hk : (s.tables.insert table s.next).lookup n = some k := hk
    by_cases heq : n = table
    · subst heq
      rw [lookup_insert] at hk
      cases hk
      exact ⟨new, hself, hname⟩
    · rw [lookup_insert_ne heq] at hk
      obtain ⟨i, hi, hi'⟩ := h.table n k hk
      exact ⟨i, hback k i hi, hi'⟩
  · replace hk : (names.foldl (fun m n => m.insert n s.next) s.indexDhts).lookup n = some k := hk
    rw [Catalog.lookup_foldl (fun m _ => lookup_insert m) fun _ _ _ h => lookup_insert_ne h] at hk
    split_ifs at hk with hn
    · cases hk
      exact ⟨new, hself, (hindices n).2 hn, table, lookup_insert _⟩
    · obtain ⟨i, hi, hmem, m, hm⟩ := h.index n k hk
      exact ⟨i, hback k i hi, hmem, m, hlive m k hm⟩
  · obtain ⟨i, hi⟩ := h.known k m hm
    exact ⟨i, hback k i hi⟩
  · rcases instances_added hi with ⟨rfl, -⟩ | hi
    · exact lt_succ_self _
    · exact (h.below k i hi).trans (lt_succ_self _)
  · rcases instances_added hi with ⟨-, rfl⟩ | hi
    · rw [hindices, hname]
      exact hne
    · exact h.name k i hi
  · have hold {k : ℕ} {i : Instance} (hal : (s.added table new names).Alive k)
        (hi : s.instances k = some i) : s.Alive k :=
      (alive_added hal).resolve_left fun hk => by
        rw [hk, h.instances_next] at hi
        nomatch hi
    rcases instances_added hi1 with ⟨rfl, rfl⟩ | hj1
    · rcases instances_added hi2 with ⟨rfl, -⟩ | hj2
      · rfl
      · exact absurd hn2 (hfresh k2 i2 (hold hal2 hj2) hj2 n (hnames n hn1))
    · rcases instances_added hi2 with ⟨-, rfl⟩ | hj2
      · exact absurd hn1 (hfresh k1 i1 (hold hal1 hj1) hj1 n (hnames n hn2))
      · exact h.apart k1 k2 i1 i2 n (hold hal1 hj1) (hold hal2 hj2) hj1 hj2 hn1 hn2

theorem Tracked.added (h : Tracked s) (hn : Named s)
    (hqueue : new.rings.queue = []) (hplaced : Placed new.table new.rings)
    (hempty : ∀ p, new.rings.triggers p = []) : Tracked (s.added table new names) := by
  have hnone : ∀ p, s.triggersAt s.next p = [] := by
    intro p
    unfold triggersAt
    rw [hn.instances_next]
    rfl
  refine h.retable rfl le_rfl (append_nil _).symm (forall_mem_nil _) (fun k i hi => ?_)
    (fun k p => ?_) fun k hk => ?_
  · rcases instances_added hi with ⟨-, rfl⟩ | hi
    · exact .inr ⟨hqueue, hplaced⟩
    · exact .inl hi
  · by_cases hk : k = s.next
    · subst hk
      rw [hnone p, triggersAt_of_some (update_self _ _ _)]
      exact hempty p
    · show (update s.instances s.next (some new) k).elim [] _ = _
      rw [update_of_ne hk]
      rfl
  · rcases alive_added hk with rfl | hk
    · exact .inr hnone
    · exact .inl hk

section

variable (h : Inv s)
include h

theorem Inv.take (hi : s.instances k = some i) (halive : s.Alive k) (hm : Moves s k i r) :
    Inv (s.take k i r) :=
  ⟨h.named.take hi halive, h.tracked.take hi halive hm⟩

theorem Inv.createTable {columns : ColumnDefinitions}
    (hfresh : Fresh s (.createTable table columns indices))
    (hs' : s.createTable table columns indices = some s') : Inv s' := by
  unfold Store.createTable at hs'
  dsimp only at hs'
  split_ifs at hs' with hthere hdup hclash
  · exact some.inj hs' ▸ h
  · exact some.inj hs' ▸ h
  cases hs'
  refine ⟨h.named.added _ rfl (Catalog.mem_foldl_insert _ _ indices) (fun hmem => ?_) hthere
    (hfresh.resolve_left hthere), h.tracked.added h.named rfl placed_initial fun p => ?_⟩
  · obtain ⟨i, -, heq⟩ := mem_map.1 hmem
    exact ringName_ne_self table i.name heq
  · cases p <;> rfl

theorem Inv.dropTable (hs' : s.dropTable table = some s') : Inv s' := by
  unfold Store.dropTable at hs'
  cases hk0 : s.tables.lookup table with rw [hk0] at hs'
  | none => exact some.inj hs' ▸ h
  | some k₀ =>
    obtain ⟨i0, hi0, hs'⟩ := bind_eq_some_iff.1 hs'
    cases hs'
    have htables : ∀ n k, (s.tables.erase table).lookup n = some k →
        s.tables.lookup n = some k := by
      intro n k hk
      by_cases hn : n = table
      · rw [hn, lookup_erase] at hk
        nomatch hk
      · exact (lookup_erase_ne hn).symm.trans hk
    have halive : ∀ k, Alive { s with
        tables := s.tables.erase table
        indexDhts := i0.table.indices.keys.foldl (fun m n => m.erase n) s.indexDhts } k →
        s.Alive k := fun k => Or.imp_left fun ⟨n, hn⟩ => ⟨n, htables n k hn⟩
    have hn := h.named
    refine ⟨⟨fun n k hk => hn.table n k (htables n k hk), fun n k hk => ?_, hn.known, hn.below,
      hn.name, fun k k' i i' n hal hal' => hn.apart k k' i i' n (halive k hal) (halive k' hal')⟩,
      h.tracked.retable rfl le_rfl (append_nil _).symm (forall_mem_nil _) (fun k i hi => .inl hi)
        (fun k p => rfl) fun k hk => .inl (halive k hk)⟩
    rw [Catalog.lookup_foldl_erase] at hk
    split_ifs at hk with hmem
    obtain ⟨i, hi, hmem', m, hm⟩ := hn.index n k hk
    refine ⟨i, hi, hmem', m, (lookup_erase_ne ?_).trans hm⟩
    -- the index is not one of the table that is dropped
    rintro rfl
    obtain rfl := some.inj (hk0.symm.trans hm)
    obtain rfl := some.inj (hi0.symm.trans hi)
    exact hmem (mem_keys.1 hmem')

/-! ### Steps and runs -/

/-- A call on a table. -/
theorem Inv.call {missing : Msg} {op : Instance → Option Rings}
    (hs' : s.call table missing op = some s') (hfired : missing.fired = none)
    (hcomp : ∀ c, missing.completes = some c → c.1 = s.calls ∧ c.2.code ≠ .success)
    (hop : ∀ k i r, s.instances k = some i → op i = some r →
      Moves { s with calls := s.calls + 1 } k i r) : Inv s' := by
  have htick : Inv { s with calls := s.calls + 1 } :=
    ⟨h.named.of_queue fun _ _ hm => hm, h.tracked.tick⟩
  unfold Store.call at hs'
  cases hk : s.tables.lookup table with rw [hk] at hs'
  | none =>
    cases hs'
    refine ⟨htick.named.reply missing, htick.tracked.reply hfired fun c hc => ?_⟩
    exact ⟨(hcomp c hc).1 ▸ lt_succ_self _, (hcomp c hc).2⟩
  | some k =>
    obtain ⟨i, hi, hs'⟩ := bind_eq_some_iff.1 hs'
    obtain ⟨r, hr, hs'⟩ := bind_eq_some_iff.1 hs'
    cases hs'
    exact htick.take hi (.inl ⟨table, hk⟩) (hop k i r hi hr)

/-- A call that fires triggers, and is not a removal of one. -/
theorem Inv.moves (hi : s.instances k = some i) (hf : Fires cb i.table i.rings r ps)
    (hcb : ∀ c, cb = some c → c = s.calls) : Moves { s with calls := s.calls + 1 } k i r := by
  refine h.tracked.tick.moves_of_fires hi hf fun c hc => ?_
  obtain rfl := hcb c hc
  exact ⟨lt_succ_self _, fun tid hmem => absurd (h.tracked.calls _ hmem) (lt_irrefl _)⟩

/-- A call that only posts one answer or one message of a read. -/
theorem Inv.moves_of_read (hi : s.instances k = some i)
    (hm : m.reader = some c) : Moves { s with calls := s.calls + 1 } k i (i.rings.post [m]) :=
  h.moves hi (.read (h.tracked.own k i hi).2 hm) fun c hc => absurd hc.symm (some_ne_none c)

theorem Inv.install {place : Place} {op : Instance → Rings}
    (hs' : s.install table place op = some s')
    (hop : ∀ k i, s.instances k = some i → Arms i.table i.rings (op i) place s.calls) : Inv s' := by
  obtain ⟨s1, hs1, hs'⟩ := bind_eq_some_iff.1 hs'
  cases hs'
  unfold Store.call at hs1
  cases hk : s.tables.lookup table with rw [hk] at hs1
  | none =>
    cases hs1
    have hnone : ((s.queue ++ [((none : Option ℕ), Msg.putTriggerReply s.calls
        (.concurrent "\"Table dropped.\"") .failed)]).drop s.queue.length).filterMap
        (fun m => m.1.bind fun k => installed k place m.2) = [] := by
      rw [drop_left]
      rfl
    refine ⟨(h.named.reply _).of_queue fun _ _ hm => hm, ?_⟩
    dsimp only [Store.reply]
    rw [hnone]
    exact h.tracked.tick.reply rfl nofun
  | some k =>
    obtain ⟨i, hi, hs1⟩ := bind_eq_some_iff.1 hs1
    cases hs1
    obtain ⟨result, tid, hqueue, hmoves⟩ := h.tracked.moves_of_arms hi (hop k i hi)
    set e := installed k place (.putTriggerReply s.calls result tid) with he
    have hnew : ((s.queue ++ (op i).queue.map fun m => (some k, m)).drop
        s.queue.length).filterMap (fun m => m.1.bind fun k => installed k place m.2) =
        e.toList := by
      rw [drop_left, hqueue, he]
      show filterMap _ [(some k, Msg.putTriggerReply s.calls result tid)] = _
      rw [filterMap_cons]
      dsimp only [bind_some]
      cases installed k place (.putTriggerReply s.calls result tid) <;> rfl
    have hnoted : Inv { s with calls := s.calls + 1, log := e.toList ++ s.log } := by
      refine ⟨h.named.of_queue fun _ _ hm => hm, ?_⟩
      obtain ⟨code, message⟩ := result
      cases code with
      | success => exact h.tracked.log (.inl ⟨k, place, tid, rfl⟩)
      | _ => exact h.tracked.tick
    dsimp only [Store.take]
    rw [hnew]
    exact hnoted.take hi (.inl ⟨table, hk⟩) (hmoves _ rfl)

theorem Inv.removeTrigger (hs' : s.removeTrigger tid = some s') : Inv s' := by
  have hnoted : Inv { s with
      calls := s.calls + 1, log := .removeTrigger s.calls tid :: s.log } :=
    ⟨h.named.of_queue fun _ _ hm => hm, h.tracked.log (.inr ⟨tid, rfl⟩)⟩
  unfold Store.removeTrigger at hs'
  cases hk : (s.indexDhts.lookup tid.ring).or (s.tables.lookup tid.ring) with rw [hk] at hs'
  | none =>
    cases hs'
    refine ⟨hnoted.named.reply _, hnoted.tracked.reply rfl fun c hc => ?_⟩
    cases hc
    exact ⟨lt_succ_self _, Code.noConfusion⟩
  | some k =>
    obtain ⟨i, hi, hs'⟩ := bind_eq_some_iff.1 hs'
    cases hs'
    have hlive : ∃ n, s.tables.lookup n = some k := by
      rcases or_eq_some_iff.1 hk with hk | ⟨-, hk⟩
      · obtain ⟨_, _, _, hlive⟩ := h.named.index _ k hk
        exact hlive
      · exact ⟨_, hk⟩
    have htakes := takes_removeTrigger (h.tracked.own k i hi).2 (h.named.name k i hi) tid s.calls
    exact hnoted.take hi (.inl hlive) (h.tracked.moves_of_takes h.named hk hi htakes)

theorem Inv.deliver (hs' : s.deliver = some s') : Inv s' := by
  unfold Store.deliver at hs'
  cases hq : s.queue with
  | nil =>
    rw [hq] at hs'
    nomatch hs'
  | cons x queue =>
    obtain ⟨o, m⟩ := x
    rw [hq] at hs'
    cases o with
    | none =>
      cases hs'
      exact ⟨h.named.of_queue fun k m' hm' => hq ▸ mem_cons_of_mem _ hm', h.tracked.pop hq⟩
    | some k =>
      obtain ⟨i, hi, hs'⟩ := bind_eq_some_iff.1 hs'
      cases hs'
      -- the message is run while it still waits, and then taken from the queue
      have halive : s.Alive k := .inr ⟨m, hq ▸ mem_cons_self⟩
      obtain ⟨ps, hf⟩ := fires_handle (h.tracked.own k i hi).2 m
      have htake := h.take hi halive (h.tracked.moves_of_fires hi hf nofun)
      have hq' : (s.take k i (i.rings.handle m)).queue =
          (some k, m) :: (queue ++ (i.rings.handle m).queue.map fun m => (some k, m)) := by
        rw [take_queue, hq]
        rfl
      exact ⟨htake.named.of_queue fun k' m' hm' => hq' ▸ mem_cons_of_mem _ hm',
        htake.tracked.pop hq'⟩

end

theorem Inv.getNext (h : Inv s) {ctxt : Context}
    (hs' : s.getNext table ctxt = some s') : Inv s' := by
  refine h.call hs' rfl nofun fun k i r hi hr => ?_
  split_ifs at hr with hindex
  · split at hr
    · cases hr
      exact h.moves_of_read hi rfl
    · obtain ⟨other, -, hr⟩ := bind_eq_some_iff.1 hr
      cases hr
      obtain ⟨m, hm, hread, -⟩ :=
        Rings.reads_indexGetNext { other.rings with queue := [] } ctxt s.calls
      rw [hm]
      exact h.moves_of_read hi hread
  · cases hr
    obtain ⟨m, hm, hread, -⟩ := i.rings.reads_contentGetNext ctxt s.calls
    rw [hm]
    exact h.moves_of_read hi hread

/-- **A step keeps the invariant.** -/
theorem Inv.step (h : Inv s) {digest : List UInt8 → GUID} {act : Act}
    (hfresh : Fresh s act) (hs' : s.step digest act = some s') : Inv s' := by
  have hnone (c : ℕ) (hc : none = some c) : c = s.calls := nomatch hc
  cases act with
  | createTable table columns indices => exact h.createTable hfresh hs'
  | dropTable table => exact h.dropTable hs'
  | get table query =>
    refine h.call hs' rfl nofun fun k i r hi hr => ?_
    obtain ⟨m, rfl, hm, -⟩ := Rings.reads_get hr
    exact h.moves_of_read hi hm
  | getNext table ctxt => exact h.getNext hs'
  | put table row random =>
    refine h.call hs' rfl nofun fun k i r hi hr => ?_
    obtain ⟨x, hx, rfl⟩ := map_eq_some_iff.1 hr
    obtain ⟨ps, hf⟩ := fires_put (h.tracked.own k i hi).2 hx
    exact h.moves hi hf hnone
  | modify table ctxt row =>
    refine h.call hs' rfl nofun fun k i r hi hr => ?_
    obtain ⟨x, hx, rfl⟩ := map_eq_some_iff.1 hr
    obtain ⟨ps, hf⟩ := fires_modify (h.tracked.own k i hi).2 hx
    exact h.moves hi hf hnone
  | remove table ctxt =>
    refine h.call hs' rfl (fun c hc => ?_) fun k i r hi hr => ?_
    · cases hc
      exact ⟨rfl, Code.noConfusion⟩
    · cases hr
      obtain ⟨ps, hf⟩ := fires_internalRemove (h.tracked.own k i hi).2 ctxt.currentRow
        (some s.calls)
      exact h.moves hi hf fun c hc => (some.inj hc).symm
  | putTrigger table ctxt =>
    exact h.install hs' fun k i hi => arms_putTrigger (h.tracked.own k i hi).2 ctxt s.calls
  | putTableTrigger table sticky =>
    exact h.install hs' fun k i hi => arms_putTableTrigger (h.tracked.own k i hi).2 sticky s.calls
  | removeTrigger tid => exact h.removeTrigger hs'
  | deliver => exact h.deliver hs'

theorem Reliable.of_append (h : Reliable (newer ++ older)) : Reliable older := by
  induction newer with
  | nil => exact h
  | cons e newer ih =>
    refine ih ?_
    cases e with
    | invoked f => exact h.1
    | _ => exact h

/-- **Removal is reliable.**  In every run in which each table gets names for its rings that no
ring has which lives or has messages waiting: when `remove_trigger` has completed with success, no
function that was installed under the id before the call is invoked any more; and a trigger that
is not sticky is invoked at most once. -/
theorem removal_reliable {digest : List UInt8 → GUID} {acts : List Act}
    (hfresh : Along (Store.step digest) Fresh empty acts)
    (hrun : run (Store.step digest) empty acts = some s) :
    (∀ newer middle older c result tid f k p,
      s.log = newer ++ .removed c result :: (middle ++ .removeTrigger c tid :: older) →
      result.code = .success → .putTrigger f k p tid ∈ older → .invoked f ∉ newer) ∧
    ∀ f k p tid, .putTrigger f k p tid ∈ s.log → p ≠ .sticky → s.log.count (.invoked f) ≤ 1 := by
  have h : Inv s := run_invariant_of_along (fun _ _ _ h hf hs => Inv.step h hf hs) inv_empty
    hfresh hrun
  refine ⟨fun newer middle older c result tid f k p hlog hcode hput hmem => ?_,
    fun f k p tid hput hp => ?_⟩
  · obtain ⟨n1, n2, rfl⟩ := append_of_mem hmem
    have hrel := h.tracked.reliable
    rw [hlog, append_assoc] at hrel
    exact hrel.of_append.2 n2 middle older c result tid k p rfl hcode hput
  · have hone := (h.tracked.once f k p tid hput hp).1
    unfold uses at hone
    omega

end Named

/-- The id of the first trigger on a table. -/
def firstOf (table : String) : TriggerId := ⟨true, table, .any, 0⟩

/-- Two triggers on a table with an index, of which the first is removed before a row is put. -/
def twoTriggers : List Act :=
  [.createTable "hosts" ∅ [⟨"by_guid", ["GUID"]⟩], .putTableTrigger "hosts" true,
    .putTableTrigger "hosts" false, .removeTrigger (firstOf "hosts"), .deliver, .deliver, .deliver,
    .put "hosts" (AList.insert "GUID" (.guid 7) ∅) 0, .deliver, .deliver]

/-- The hypotheses of `removal_reliable` are satisfiable: in `twoTriggers` one of the triggers is
removed, and only the other one invoked. -/
theorem removal_reliable_two : ∃ s newer older,
    run (Store.step fun _ => 0) empty twoTriggers = some s ∧
    s.log = newer ++ .removed 2 .ok :: ([] ++ .removeTrigger 2 (firstOf "hosts") :: older) ∧
    .putTrigger 0 0 .sticky (firstOf "hosts") ∈ older ∧ .invoked 1 ∈ newer ∧
    .invoked 0 ∉ newer := by
  have hfresh : Along (Store.step fun _ => 0) Fresh empty twoTriggers := by
    refine ⟨.inr ?_, fun s _ => .of_forall (by simp [Fresh]) s⟩
    rintro k i (⟨n, hn⟩ | ⟨m, hm⟩)
    · nomatch hn
    · nomatch hm
  let older : List Event :=
    [.putTrigger 1 0 .nonsticky ⟨true, "hosts", .any, 1⟩,
      .putTrigger 0 0 .sticky (firstOf "hosts")]
  obtain ⟨s, hrun, hlog⟩ := map_eq_some_iff.1 (by decide +kernel :
    (run (Store.step fun _ => 0) empty twoTriggers).map log = some ([.invoked 1] ++
      .removed 2 .ok :: ([] ++ .removeTrigger 2 (firstOf "hosts") :: older)))
  refine ⟨s, [.invoked 1], older, hrun, hlog, by decide, by decide, ?_⟩
  exact (removal_reliable hfresh hrun).1 _ [] older 2 .ok (firstOf "hosts") 0 0 .sticky hlog rfl
    (by decide)

/-- **A trigger is invoked after its removal.**  The table `a` has an index `b`, whose ring has the
name of the table `a_b`.  A sticky trigger on `a_b` is removed with success, and is invoked when a
row is put there. -/
theorem removed_invoked : ∃ s, run (Store.step fun _ => 0) empty
    [.createTable "a_b" ∅ [], .createTable "a" ∅ [⟨"b", ["GUID"]⟩], .putTableTrigger "a_b" true,
      .deliver, .removeTrigger (firstOf "a_b"), .deliver, .put "a_b" ∅ 7, .deliver] = some s ∧
    s.log = [.invoked 0, .removed 1 .ok, .removeTrigger 1 (firstOf "a_b"),
      .putTrigger 0 0 .sticky (firstOf "a_b")] :=
  map_eq_some_iff.1 (by decide +kernel)

end NoxClassic.Storage.Store
