/-
# The order in which the poll loop polls

The polling thread goes through the list from its beginning to its end, so of two
pollables that are both ahead of it the first one is polled first, unless the thread is
in the `poll()` of the first one already.  `rest` is what is ahead: the part of the list
from where the polling thread stands, or all of the list when the next `poll()` will be
the one at its beginning.  New pollables are added behind it, and the rotation of the
list puts what was ahead to its beginning, so every step keeps the order (one `pair_`
lemma for each) but for the end, or the suspension, of the `poll()` of the first.
-/

import NoxClassic.PollLoop.Safety

namespace NoxClassic.PollLoop

open List State Function

variable {P : Type} {n : ℕ}

section Rest

variable {l : List (PollableRef P)} {is : List ℕ} {i j k e c : ℕ}

/-- The nodes from an iterator on. -/
def restFrom (is : List ℕ) : Option ℕ → List ℕ
  | none => []
  | some i => is.dropWhile (· ≠ i)

/-- The nodes that a polling thread at this place has ahead. -/
def restAt (is : List ℕ) : Pc → List ℕ
  | .servicing i _ => restFrom is i
  | .polling i _ true => restFrom is (some i)
  | _ => is

/-- The nodes that are polled next, in order. -/
def State.rest (s : State P n) : List ℕ :=
  match s.pollingThread with
  | none => nodes s.pollables
  | some t => restAt (nodes s.pollables) (s.pc t)

theorem State.rest_sublist (s : State P n) : s.rest <+ nodes s.pollables := by
  have hfrom (is : List ℕ) (o : Option ℕ) : restFrom is o <+ is := by
    cases o with
    | none => exact nil_sublist _
    | some i => exact dropWhile_sublist _
  unfold rest restAt
  split
  · exact Sublist.refl _
  · split
    · exact hfrom _ _
    · exact hfrom _ _
    · exact Sublist.refl _

theorem restFrom_some (is : List ℕ) (i : ℕ) : restFrom is (some i) = is.dropWhile (· ≠ i) := rfl

/-- What is ahead of a node: the node, and what stands behind it. -/
theorem restFrom_append {as bs : List ℕ} (h : i ∉ as) :
    restFrom (as ++ i :: bs) (some i) = i :: bs := by
  rw [restFrom_some, dropWhile_append_of_pos fun a ha => decide_eq_true (ne_of_mem_of_not_mem ha h)]
  exact dropWhile_cons_of_neg (by simp)

/-- A node splits the list, and what is ahead of it. -/
theorem exists_split (hnodup : (nodes l).Nodup) (hi : i ∈ nodes l) : ∃ as bs,
    nodes l = as ++ i :: bs ∧ i ∉ as ∧ i ∉ bs ∧ restFrom (nodes l) (some i) = i :: bs ∧
      restFrom (nodes l) (succ l i) = bs ∧ nodes (rotate l i) = bs ++ (as ++ [i]) := by
  obtain ⟨as, bs, hl⟩ := append_of_mem hi
  rw [hl] at hnodup
  obtain ⟨-, hnodup', hdisj⟩ := nodup_append.1 hnodup
  have has : i ∉ as := fun h => hdisj i h i mem_cons_self rfl
  have hfrom : restFrom (as ++ i :: bs) (some i) = i :: bs := restFrom_append has
  have hsucc : succ l i = bs.head? := by
    unfold succ
    rw [hl]
    exact congrArg (fun is => is.tail.head?) hfrom
  refine ⟨as, bs, hl, has, (nodup_cons.1 hnodup').1, hl ▸ hfrom, ?_, ?_⟩
  · rw [hsucc, hl]
    cases bs with
    | nil => rfl
    | cons j bs =>
      have hj : j ∉ as ++ [i] := by
        rw [append_cons] at hnodup
        exact fun h => (nodup_append.1 hnodup).2.2 j h j mem_cons_self rfl
      rw [append_cons]
      exact restFrom_append hj
  · have hidx : (nodes l).idxOf i + 1 = (as ++ [i]).length := by
      rw [hl, idxOf_append_of_notMem has, idxOf_cons_self, length_append]
      rfl
    have hrotate : nodes (rotate l i) = (nodes l).drop ((nodes l).idxOf i + 1) ++
        (nodes l).take ((nodes l).idxOf i + 1) := by
      unfold rotate nodes
      rw [map_append, map_drop, map_take]
    rw [hrotate, hidx, hl, append_cons as i bs, drop_left, take_left]

theorem restFrom_begin (l : List (PollableRef P)) : restFrom (nodes l) (begin l) = nodes l := by
  unfold begin restFrom
  cases nodes l with
  | nil => rfl
  | cons i is => exact dropWhile_cons_of_neg (by simp)

theorem pair_sublist_filter (h : [e, c] <+ is) (he : e ≠ k) (hc : c ≠ k) :
    [e, c] <+ is.filter (· ≠ k) := by
  have hpair : [e, c].filter (· ≠ k) = [e, c] := by simp [he, hc]
  exact hpair ▸ h.filter _

theorem nodes_erase (l : List (PollableRef P)) (k : ℕ) :
    nodes (erase l k) = (nodes l).filter (· ≠ k) := by
  unfold nodes erase
  rw [filter_map]
  rfl

/-- A node that is taken out is taken out of what is ahead of another one. -/
theorem restFrom_filter (is : List ℕ) (hne : i ≠ k) :
    restFrom (is.filter (· ≠ k)) (some i) = (restFrom is (some i)).filter (· ≠ k) := by
  simp only [restFrom_some]
  induction is with
  | nil => rfl
  | cons j js ih =>
    by_cases hj : j = k
    · subst hj
      rw [filter_cons_of_neg (by simp), ih, dropWhile_cons_of_pos (by simpa using hne.symm)]
    rw [filter_cons_of_pos (by simpa using hj)]
    by_cases hi : j = i
    · rw [dropWhile_cons_of_neg (by simpa using hi), dropWhile_cons_of_neg (by simpa using hi),
        filter_cons_of_pos (by simpa using hj)]
    · rw [dropWhile_cons_of_pos (by simpa using hi), dropWhile_cons_of_pos (by simpa using hi), ih]

/-- Nodes that are added stand behind what is ahead. -/
theorem restAt_append_sublist (is js : List ℕ) (pc : Pc) :
    restAt is pc <+ restAt (is ++ js) pc := by
  have hfrom (o : Option ℕ) : restFrom is o <+ restFrom (is ++ js) o := by
    cases o with
    | none => exact Sublist.refl _
    | some i =>
      by_cases hi : i ∈ is
      · obtain ⟨as, bs, rfl, has⟩ := eq_append_cons_of_mem hi
        rw [append_assoc, cons_append, restFrom_append has, restFrom_append has]
        exact (sublist_append_left bs js).cons_cons i
      · have hnil : restFrom is (some i) = [] := by
          rw [restFrom_some, ← append_nil is,
            dropWhile_append_of_pos fun a ha => decide_eq_true (ne_of_mem_of_not_mem ha hi)]
          rfl
        rw [hnil]
        exact nil_sublist _
  unfold restAt
  split
  · exact hfrom _
  · exact hfrom _
  · exact sublist_append_left _ _

end Rest

/-! ### The steps -/

section Steps

variable {s s' : State P n} {t : Fin (n + 1)} {i e c : ℕ}

theorem State.rest_eq (h : s.pollingThread = some t) :
    s.rest = restAt (nodes s.pollables) (s.pc t) := by
  unfold rest
  rw [h]

/-- What is ahead of a thread that went elsewhere. -/
theorem State.rest_goto (h : s.pollingThread = some t) (pc : Pc) :
    (s.goto t pc).rest = restAt (nodes s.pollables) pc := by
  simp only [rest, goto, h, update_self]

/-- All of the list is ahead when no thread runs. -/
theorem Inv.rest_eq_nodes (h : Inv s) (hrun : s.running = none) : s.rest = nodes s.pollables := by
  unfold rest
  split
  · rfl
  rename_i t _
  have hruns : (s.pc t).runs ≠ true := fun hr => nomatch hrun.symm.trans (h.roles.runs t hr)
  unfold restAt
  split
  · rename_i heq
    exact absurd (by rw [heq]; rfl) hruns
  · rename_i heq
    exact absurd (by rw [heq]; rfl) hruns
  · rfl

/-- The end of `NEXT_WITH_REFERENCE`: the node may be erased. -/
theorem unreference_nodes (hi : i ∈ nodes s.pollables) :
    (s.unreference i).1 = succ s.pollables i ∧
      (s.unreference i).2.pollingThread = s.pollingThread ∧
      (nodes (s.unreference i).2.pollables = nodes s.pollables ∨
        nodes (s.unreference i).2.pollables = (nodes s.pollables).filter (· ≠ i)) := by
  obtain ⟨ref, href⟩ := exists_deref hi
  unfold unreference
  rw [href]
  dsimp only
  split_ifs with hdead
  · exact ⟨rfl, rfl, .inr (nodes_erase _ _)⟩
  · exact ⟨rfl, rfl, .inl (nodes_modify _ _ fun _ => rfl)⟩

/-- A pair of nodes that stay in the list stays in order. -/
theorem pair_unreference (hi : i ∈ nodes s.pollables)
    (he : e ∈ nodes (s.unreference i).2.pollables) (hc : c ∈ nodes (s.unreference i).2.pollables)
    (hsub : [e, c] <+ nodes s.pollables) : [e, c] <+ nodes (s.unreference i).2.pollables := by
  obtain ⟨-, -, heq | heq⟩ := unreference_nodes hi
  · rwa [heq]
  · rw [heq] at he hc ⊢
    exact pair_sublist_filter hsub (of_decide_eq_true (mem_filter.1 he).2)
      (of_decide_eq_true (mem_filter.1 hc).2)

/-- The polling thread passes a node that is not the first of the pair. -/
theorem pair_pass (hnodup : (nodes s.pollables).Nodup) (hi : i ∈ nodes s.pollables)
    (hp : s.pollingThread = some t) (hne : e ≠ i)
    (hsub : [e, c] <+ restFrom (nodes s.pollables) (some i)) (progress : Bool) :
    [e, c] <+ ((s.unreference i).2.nextPollable t (s.unreference i).1 progress).rest := by
  obtain ⟨hfst, hpoll, hnodes⟩ := unreference_nodes hi
  obtain ⟨as, bs, -, -, hbs, hfrom, hsucc, -⟩ := exists_split hnodup hi
  rw [hfrom] at hsub
  have hself := hpoll.trans hp
  unfold nextPollable
  rw [if_neg (not_not.2 hself), rest_goto hself, hfst]
  show [e, c] <+ restFrom _ _
  rcases hnodes with heq | heq
  · rw [heq, hsucc]
    exact hsub.of_cons_of_ne hne
  cases hj : succ s.pollables i with
  | none =>
    rw [hj] at hsucc
    obtain rfl : [] = bs := hsucc
    exact absurd (hsub.of_cons_of_ne hne) (by simp)
  | some j =>
    rw [heq, restFrom_filter _ (succ_ne hnodup hj), ← hj, hsucc,
      filter_eq_self.2 fun k hk => decide_eq_true (ne_of_mem_of_not_mem hk hbs)]
    exact hsub.of_cons_of_ne hne

/-- The places where a thread has no iterator in the list of pollables to poll. -/
theorem pair_visit (h : Inv s) (hs : s.visit t = some s')
    (hlive : ∃ ref ∈ s.pollables, ref.node = e ∧ ref.pollable ≠ none) (he : e ∈ nodes s'.pollables)
    (hc : c ∈ nodes s'.pollables) (hsub : [e, c] <+ s.rest) : [e, c] <+ s'.rest := by
  have hnodes (i : ℕ) : nodes (s.reference i).pollables = nodes s.pollables :=
    nodes_modify _ _ fun _ => rfl
  have hpt := (h.roles.acts t).1
  -- a node without a pollable is not the first of the pair
  have hdead {i node refCnt} (href : deref (s.reference i).pollables i =
      some ⟨node, none, refCnt⟩) : e ≠ i := by
    rintro rfl
    obtain ⟨ref, hmem, hnode, hsome⟩ := hlive
    obtain ⟨hmem', hnode'⟩ := deref_eq_some href
    rcases mem_modify hmem' with ⟨ref', hmem'', hnode'', heq⟩ | ⟨-, hne⟩
    · have hsame := eq_of_node_eq h.list.nodup hmem hmem'' (hnode.trans hnode''.symm)
      have hnone := congrArg PollableRef.pollable heq
      exact hsome (hsame ▸ hnone)
    · exact hne hnode'
  unfold visit at hs
  cases hpc : s.pc t with rw [hpc] at hs hpt
  | servicing o progress =>
    have hp := hpt rfl
    rw [rest_eq hp, hpc] at hsub
    cases o with
    | none => exact absurd hsub (by simp [restAt, restFrom])
    | some i =>
      have hi := h.iter t i (by rw [hpc]; rfl)
      rw [← hnodes i] at hi hsub
      obtain ⟨⟨node, pollable, refCnt⟩, href⟩ := exists_deref hi
      dsimp only at hs
      rw [href] at hs
      cases pollable with cases hs
      | some p =>
        refine (rest_goto ?_ (.polling i progress true)).symm ▸ hsub
        exact hp
      | none => exact pair_pass ((hnodes i).symm ▸ h.list.nodup) hi hp (hdead href) hsub _
  | waitLoop o =>
    have hp := hpt rfl
    have hall := hsub.trans s.rest_sublist
    cases o with
    | none =>
      cases hs
      exact (rest_goto hp .waiting).symm ▸ hall
    | some i =>
      have hi := h.iter t i (by rw [hpc]; rfl)
      rw [← hnodes i] at hi hall
      obtain ⟨⟨node, pollable, refCnt⟩, href⟩ := exists_deref hi
      dsimp only at hs
      rw [href] at hs
      cases pollable with cases hs
      | some p =>
        refine (rest_goto ?_ (.inWait i)).symm ▸ hall
        exact hp
      | none =>
        rw [rest_goto ((unreference_nodes hi).2.1.trans hp)]
        exact pair_unreference hi he hc hall
  | _ => nomatch hs

/-- A thread that is not the polling thread any more stops, or becomes it and yields. -/
theorem nextPollable_of_ne {o : Option ℕ} {b : Bool} (h : s.pollingThread ≠ some t) :
    (s.nextPollable t o b).running = none ∧ (s.nextPollable t o b).pollables = s.pollables := by
  unfold nextPollable serviced
  rw [if_pos h]
  split
  · unfold loopTop
    rw [if_pos h]
    exact ⟨rfl, rfl⟩
  · exact ⟨rfl, rfl⟩

theorem pair_ret (h : Inv s) (hrun : s.running = some t) {result : Bool}
    (hs : s.ret t result = some s') (hne : ∀ progress, s.pc t ≠ .polling e progress true)
    (he : e ∈ nodes s'.pollables) (hc : c ∈ nodes s'.pollables) (hsub : [e, c] <+ s.rest) :
    [e, c] <+ s'.rest := by
  have hall := hsub.trans s.rest_sublist
  have hpt := h.roles.acts t
  have hinv := h.ret hrun hs
  unfold ret at hs
  cases hpc : s.pc t with rw [hpc] at hs hpt
  | polling i progress hook =>
    have hi : i ∈ nodes s.pollables := h.list.held t i (by rw [hpc]; rfl)
    replace hs : s' = (s.unreference i).2.nextPollable t (s.unreference i).1
        (progress || result) := (Option.some.inj hs).symm
    subst hs
    cases hook with
    | true =>
      rw [rest_eq (hpt.1 rfl), hpc] at hsub
      exact pair_pass h.list.nodup hi (hpt.1 rfl) (fun heq => hne progress (by rw [hpc, heq]))
        hsub _
    | false =>
      have hp : s.pollingThread ≠ some t := fun hp => nomatch hpt.2 hp
      obtain ⟨hstop, hsame⟩ :=
        nextPollable_of_ne ((unreference_nodes hi).2.1.trans_ne hp)
      rw [hinv.rest_eq_nodes hstop]
      rw [hsame] at he hc ⊢
      exact pair_unreference hi he hc hall
  | inWait i =>
    have hi : i ∈ nodes s.pollables := h.list.held t i (by rw [hpc]; rfl)
    cases hs
    refine (rest_goto ((unreference_nodes hi).2.1.trans (hpt.1 rfl)) _).symm ▸ ?_
    exact pair_unreference hi he hc hall
  | _ => nomatch hs

theorem pair_block (h : Inv s) (hrun : s.running = some t) (hs : s.block t = some s')
    (hne : ∀ progress, s.pc t ≠ .polling e progress true) (hsub : [e, c] <+ s.rest) :
    [e, c] <+ s'.rest := by
  have hpt := (h.roles.acts t).1
  have hinv := h.block hrun hs
  unfold block at hs
  cases hpc : s.pc t with rw [hpc] at hs hpt
  | polling i progress hook =>
    cases hook with cases hs
    | false => exact hsub
    | true =>
      obtain ⟨as, bs, -, -, -, hfrom, -, hrotate⟩ :=
        exists_split h.list.nodup (h.list.held t i (by rw [hpc]; rfl))
      have hlist : (s.appointPollingThread i).pollables = rotate s.pollables i := by
        unfold appointPollingThread
        dsimp only
        split <;> rfl
      rw [rest_eq (hpt rfl), hpc] at hsub
      replace hsub : [e, c] <+ restFrom (nodes s.pollables) (some i) := hsub
      rw [hfrom] at hsub
      rw [hinv.rest_eq_nodes rfl]
      show [e, c] <+ nodes (s.appointPollingThread i).pollables
      rw [hlist, hrotate]
      exact (hsub.of_cons_of_ne fun heq => hne progress (by rw [hpc, heq])).trans
        (sublist_append_left _ _)
  | _ => nomatch hs

/-- A thread begins to go through the list. -/
theorem pair_begin (hp : s.pollingThread = some t) (progress : Bool)
    (hsub : [e, c] <+ nodes s.pollables) :
    [e, c] <+ (s.goto t (.servicing (begin s.pollables) progress)).rest := by
  rw [rest_goto hp]
  show [e, c] <+ restFrom _ _
  rwa [restFrom_begin]

theorem pair_resume (h : Inv s) (hs : s.resume t = some s') (hsub : [e, c] <+ s.rest) :
    [e, c] <+ s'.rest := by
  have hall := hsub.trans s.rest_sublist
  have hpt := (h.roles.acts t).1
  unfold resume at hs
  dsimp only at hs
  cases hpc : s.pc t with rw [hpc] at hs hpt
  | woken | yielding =>
    cases hs
    exact pair_begin (hpt rfl) _ hall
  | polling i progress hook =>
    cases hs
    exact hsub
  | waiting =>
    cases hs
    unfold loopTop
    rw [if_neg (not_not.2 (hpt rfl))]
    exact pair_begin (hpt rfl) _ hall
  | _ => nomatch hs

theorem rest_add [DecidableEq P] (s : State P n) (p : P) : s.rest <+ (s.addPollable p).rest := by
  have hnodes : nodes (s.addPollable p).pollables = nodes s.pollables ++ [s.next] := map_append
  have hpoll : (s.addPollable p).pollingThread = s.pollingThread := rfl
  unfold rest
  rw [hpoll, hnodes]
  cases s.pollingThread with
  | none => exact sublist_append_left _ _
  | some t => exact restAt_append_sublist _ _ _

theorem pair_remove (h : Inv s) (hcall : s.callable = true) {p : P}
    (he : e ∈ nodes (s.removePollable p).pollables) (hc : c ∈ nodes (s.removePollable p).pollables)
    (hsub : [e, c] <+ s.rest) : [e, c] <+ (s.removePollable p).rest := by
  have hsame : (s.removePollable p).pollingThread = s.pollingThread ∧
      (s.removePollable p).pc = s.pc := by
    unfold removePollable
    split <;> exact ⟨rfl, rfl⟩
  have hnodes : nodes (s.removePollable p).pollables = nodes s.pollables ∨
      nodes (s.removePollable p).pollables = (nodes s.pollables).filter (· ≠ s.pos p) ∧
        ∀ t progress, s.pc t ≠ .polling (s.pos p) progress true := by
    unfold removePollable
    split
    · exact .inl rfl
    rename_i ref href
    split_ifs with hzero
    · refine .inr ⟨nodes_erase _ _, fun t progress hpc => ?_⟩
      -- a thread in a call of the node has a reference to it
      obtain ⟨hmem, hnode⟩ := deref_eq_some href
      have hcount := (h.list.count ref hmem).symm.trans hzero
      have hheld : t ∈ holders (fun u => (s.pc u).node?) ref.node :=
        mem_holders.2 (by rw [hpc, hnode]; rfl)
      exact absurd (Finset.card_eq_zero.1 hcount ▸ hheld) (Finset.notMem_empty t)
    · exact .inl (nodes_modify _ _ fun _ => rfl)
  unfold rest at hsub ⊢
  rw [hsame.1, hsame.2]
  rcases hnodes with heq | ⟨heq, hfree⟩
  · rwa [heq]
  rw [heq] at he hc ⊢
  have hfilter {is : List ℕ} (hs : [e, c] <+ is) : [e, c] <+ is.filter (· ≠ s.pos p) :=
    pair_sublist_filter hs (of_decide_eq_true (mem_filter.1 he).2)
      (of_decide_eq_true (mem_filter.1 hc).2)
  cases hp : s.pollingThread with rw [hp] at hsub
  | none => exact hfilter hsub
  | some t =>
    dsimp only at hsub ⊢
    cases hpc : s.pc t with
    | servicing o progress =>
      have hrun := h.roles.runs t (by rw [hpc]; rfl)
      simp only [callable, hrun, hpc] at hcall
      nomatch hcall
    | polling i progress hook =>
      rw [hpc] at hsub
      cases hook with
      | false => exact hfilter hsub
      | true =>
        have hi : i ≠ s.pos p := fun heq => hfree t progress (by rw [hpc, heq])
        show [e, c] <+ restFrom _ (some i)
        rw [restFrom_filter _ hi]
        exact hfilter hsub
    | _ =>
      rw [hpc] at hsub
      exact hfilter hsub

end Steps

/-! ### Two pollables -/

section Pollables

variable {s s' : State P n} {t : Fin (n + 1)} {i : ℕ} {p e c : P}

/-- The node in whose `poll()` the running thread is, when it has not blocked there. -/
def State.atPoll (s : State P n) : Option ℕ :=
  match s.running with
  | none => none
  | some t =>
    match s.pc t with
    | .polling i _ true => some i
    | _ => none

theorem State.atPoll_eq_some : s.atPoll = some i ↔
    ∃ t progress, s.running = some t ∧ s.pc t = .polling i progress true := by
  unfold atPoll
  constructor
  · intro h
    split at h
    · nomatch h
    · rename_i t hrun
      split at h
      · rename_i j progress hpc
        exact ⟨t, progress, hrun, hpc.trans (by rw [Option.some.inj h])⟩
      · nomatch h
  · rintro ⟨t, progress, hrun, hpc⟩
    simp only [hrun, hpc]

theorem atPoll_goto (hrun : s.running = some t) {pc : Pc} (hpc : ∀ i b, pc ≠ .polling i b true) :
    (s.goto t pc).atPoll = none := by
  refine Option.eq_none_iff_forall_ne_some.2 fun i hat => ?_
  obtain ⟨u, b, hrun', hpc'⟩ := atPoll_eq_some.1 hat
  obtain rfl : t = u := Option.some.inj (hrun.symm.trans hrun')
  exact hpc i b ((update_self (β := fun _ => Pc) t pc s.pc).symm.trans hpc')

/-- The part of the state that only `add_pollable`, `remove_pollable` and calls change. -/
def State.book (s : State P n) : (P → ℕ) × List (Event P) := (s.pos, s.log)

/-- The thread that runs is between two calls. -/
structure Between (book : (P → ℕ) × List (Event P)) (s : State P n) : Prop where
  book : s.book = book
  atPoll : s.atPoll = none

theorem between_loopTop (hrun : s.running = some t) : Between s.book (s.loopTop t) := by
  unfold loopTop
  split_ifs
  · exact ⟨rfl, rfl⟩
  · exact ⟨rfl, atPoll_goto hrun nofun⟩

theorem between_serviced (hrun : s.running = some t) (progress : Bool) :
    Between s.book (s.serviced t progress) := by
  unfold serviced
  split_ifs
  · exact ⟨rfl, rfl⟩
  · exact ⟨rfl, atPoll_goto hrun nofun⟩
  · exact between_loopTop hrun

theorem between_nextPollable (hrun : s.running = some t) (o : Option ℕ) (progress : Bool) :
    Between s.book (s.nextPollable t o progress) := by
  unfold nextPollable
  split_ifs
  · exact between_serviced hrun false
  · exact between_serviced (s := { s with pollingThread := some t }) hrun true
  · exact ⟨rfl, atPoll_goto hrun nofun⟩

theorem book_unreference (s : State P n) (i : ℕ) :
    (s.unreference i).2.book = s.book ∧ (s.unreference i).2.running = s.running := by
  unfold unreference
  split <;> exact ⟨rfl, rfl⟩

section

variable (h : Inv s)
include h

/-- A pollable in the list has its node there. -/
theorem Inv.exists_node (hp : Live p s.log) :
    ∃ ref ∈ s.pollables, ref.node = s.pos p ∧ ref.pollable = some p := by
  obtain ⟨ref, href, hpoll⟩ := (h.logged.live p).2 hp
  exact ⟨ref, href, (h.list.pos ref href p hpoll).symm, hpoll⟩

theorem Inv.registered_iff [DecidableEq P] : s.registered p = true ↔ Live p s.log := by
  rw [← h.logged.live]
  unfold registered
  simp only [any_eq_true, decide_eq_true_eq]

theorem Inv.pos_mem (hp : Live p s.log) : s.pos p ∈ nodes s.pollables := by
  obtain ⟨ref, href, hnode, -⟩ := h.exists_node hp
  exact mem_nodes.2 ⟨ref, href, hnode⟩

/-- The node of a pollable in the list is its own. -/
theorem Inv.deref_pos (hp : Live p s.log) :
    (deref s.pollables (s.pos p)).bind PollableRef.pollable = some p := by
  obtain ⟨ref, href, hnode, hpoll⟩ := h.exists_node hp
  obtain ⟨ref', href'⟩ := exists_deref (h.pos_mem hp)
  obtain ⟨hmem, hnode'⟩ := deref_eq_some href'
  obtain rfl := eq_of_node_eq h.list.nodup href hmem (hnode.trans hnode'.symm)
  rw [href']
  exact hpoll

theorem Inv.live_of_deref
    (hi : (deref s.pollables i).bind PollableRef.pollable = some p) :
    Live p s.log ∧ i = s.pos p := by
  obtain ⟨ref, href, hpoll⟩ := Option.bind_eq_some_iff.1 hi
  obtain ⟨hmem, hnode⟩ := deref_eq_some href
  exact ⟨(h.logged.live p).1 ⟨ref, hmem, hpoll⟩,
    hnode.symm.trans (h.list.pos ref hmem p hpoll).symm⟩

/-- Nothing is ahead of the node that is being polled. -/
theorem Inv.not_behind {j : ℕ} (hat : s.atPoll = some i) (hne : j ≠ i) :
    ¬ [j, i] <+ s.rest := by
  obtain ⟨t, progress, -, hpc⟩ := atPoll_eq_some.1 hat
  have hi : i ∈ nodes s.pollables := h.list.held t i (by rw [hpc]; rfl)
  obtain ⟨as, bs, -, -, hbs, hfrom, -, -⟩ := exists_split h.list.nodup hi
  have hrest : s.rest = i :: bs := by
    rw [rest_eq ((h.roles.acts t).1 (by rw [hpc]; rfl)), hpc]
    exact hfrom
  rw [hrest]
  intro hsub
  exact hbs ((hsub.of_cons_of_ne hne).subset (by simp))

end

/-- The actions that add and remove nothing. -/
def Act.quiet : Act P n → Bool
  | .add _ | .remove _ => false
  | _ => true

/-- The actions that end a `poll()` or suspend it. -/
def Act.ends : Act P n → Bool
  | .block | .ret _ => true
  | _ => false

/-- Only additions and removals change what is in the list, and where it is found; and a `poll()`
begins in no other step than a `visit`, of the thread that runs. -/
structure Quiet (a : Act P n) (s s' : State P n) : Prop where
  pos : s'.pos = s.pos
  live : ∀ p, Live p s'.log ↔ Live p s.log
  atPoll : a ≠ .visit → s'.atPoll = none
  running : s'.atPoll = none ∨ s'.running = s.running

theorem quiet_step [DecidableEq P] (h : Inv s) {a : Act P n} (ha : a.quiet = true)
    (hs : s.step a = some s') : Quiet a s s' := by
  have hbetween (hb : Between s.book s') : Quiet a s s' := by
    obtain ⟨hpos, hlog⟩ := Prod.mk.inj hb.book
    exact ⟨hpos, fun p => by rw [hlog], fun _ => hb.atPoll, .inl hb.atPoll⟩
  cases a with
  | add | remove => cases ha
  | run =>
    obtain ⟨-, rfl⟩ := Lib.of_guard hs
    exact hbetween (between_loopTop
      (s := { s with pollingThread := some (Fin.last n), running := some (Fin.last n) }) rfl)
  | resume t =>
    obtain ⟨hrun, hs⟩ := Option.ite_none_right_eq_some.1 hs
    unfold resume at hs
    dsimp only at hs
    cases hpc : s.pc t with rw [hpc] at hs
    | woken | yielding =>
      cases hs
      exact hbetween ⟨rfl, atPoll_goto rfl (by simp)⟩
    | waiting =>
      cases hs
      exact hbetween (between_loopTop (s := { s with running := some t }) rfl)
    | polling i progress hook =>
      cases hs
      refine hbetween ⟨rfl, Option.eq_none_iff_forall_ne_some.2 fun j hat => ?_⟩
      obtain ⟨u, b, -, hu⟩ := atPoll_eq_some.1 hat
      cases hrun.symm.trans (h.roles.runs u (by rw [show s.pc u = _ from hu]; rfl))
    | _ => cases hs
  | visit =>
    obtain ⟨t, hrun, hs⟩ := Option.bind_eq_some_iff.1 hs
    have hcall (hpos : s'.pos = s.pos) (hlive : ∀ p, Live p s'.log ↔ Live p s.log)
        (hsame : s'.running = s.running) : Quiet .visit s s' :=
      ⟨hpos, hlive, absurd rfl, .inr hsame⟩
    have hunref (i : ℕ) := book_unreference (s.reference i) i
    unfold visit at hs
    split at hs
    · cases hs
      exact hbetween (between_serviced hrun _)
    · rename_i i progress hpc
      dsimp only at hs
      split at hs <;> cases hs
      · exact hcall rfl (fun _ => Iff.rfl) rfl
      · exact hcall rfl (fun _ => Iff.rfl) rfl
      · have hb := between_nextPollable ((hunref i).2.trans hrun) (s.reference i |>.unreference i).1
          progress
        exact hbetween ⟨hb.book.trans (hunref i).1, hb.atPoll⟩
    · cases hs
      exact hbetween ⟨rfl, rfl⟩
    · rename_i i hpc
      dsimp only at hs
      split at hs <;> cases hs
      · exact hcall rfl (fun _ => Iff.rfl) rfl
      · exact hcall rfl (fun _ => Iff.rfl) rfl
      · exact hbetween ⟨(hunref i).1, atPoll_goto ((hunref i).2.trans hrun) (by simp)⟩
    · cases hs
  | block =>
    obtain ⟨t, -, hs⟩ := Option.bind_eq_some_iff.1 hs
    have hbook (i : ℕ) : (s.appointPollingThread i).book = s.book := by
      unfold appointPollingThread
      dsimp only
      split <;> rfl
    unfold block at hs
    split at hs
    · cases hs
      exact hbetween ⟨hbook _, rfl⟩
    · cases hs
      exact hbetween ⟨rfl, rfl⟩
    · cases hs
  | ret progress =>
    obtain ⟨t, hrun, hs⟩ := Option.bind_eq_some_iff.1 hs
    have hunref (i : ℕ) := book_unreference s i
    unfold ret at hs
    split at hs
    · rename_i i b _ _
      cases hs
      have hb := between_nextPollable ((hunref i).2.trans hrun) (s.unreference i).1 (b || progress)
      exact hbetween ⟨hb.book.trans (hunref i).1, hb.atPoll⟩
    · rename_i i _
      cases hs
      exact hbetween ⟨(hunref i).1, atPoll_goto ((hunref i).2.trans hrun) (by simp)⟩
    · cases hs

/-- **Two pollables that are ahead in an order stay so**, until the `poll()` of the first ends or is
suspended. -/
theorem order_step [DecidableEq P] (h : Inv s) {a : Act P n} (hs : s.step a = some s')
    (hends : a.ends = true → s.atPoll ≠ some (s.pos e)) (he : Live e s.log) (hc : Live c s.log)
    (he' : Live e s'.log) (hc' : Live c s'.log) (hsub : [s.pos e, s.pos c] <+ s.rest) :
    [s'.pos e, s'.pos c] <+ s'.rest := by
  have hinv := h.step hs
  have hmem := hinv.pos_mem he'
  have hmem' := hinv.pos_mem hc'
  have hpos (ha : a.quiet = true) : s'.pos = s.pos := (quiet_step h ha hs).pos
  have hnot (ha : a.ends = true) (t : Fin (n + 1)) (hrun : s.running = some t) (progress : Bool) :
      s.pc t ≠ .polling (s.pos e) progress true :=
    fun hpc => hends ha (atPoll_eq_some.2 ⟨t, progress, hrun, hpc⟩)
  cases a with
  | run =>
    obtain ⟨-, rfl⟩ := Lib.of_guard hs
    unfold run loopTop
    rw [if_neg (not_not.2 rfl)]
    exact pair_begin rfl _ (hsub.trans s.rest_sublist)
  | resume t =>
    rw [hpos rfl]
    exact pair_resume h (Option.ite_none_right_eq_some.1 hs).2 hsub
  | visit =>
    rw [hpos rfl] at hmem hmem' ⊢
    obtain ⟨t, -, hs⟩ := Option.bind_eq_some_iff.1 hs
    obtain ⟨ref, href, hnode, hpoll⟩ := h.exists_node he
    exact pair_visit h hs ⟨ref, href, hnode, hpoll ▸ Option.some_ne_none e⟩ hmem hmem' hsub
  | block =>
    rw [hpos rfl]
    obtain ⟨t, hrun, hs⟩ := Option.bind_eq_some_iff.1 hs
    exact pair_block h hrun hs (hnot rfl t hrun) hsub
  | ret progress =>
    rw [hpos rfl] at hmem hmem' ⊢
    obtain ⟨t, hrun, hs⟩ := Option.bind_eq_some_iff.1 hs
    exact pair_ret h hrun hs (hnot rfl t hrun) hmem hmem' hsub
  | add p =>
    obtain ⟨⟨-, hp⟩, rfl⟩ := Lib.of_guard hs
    rw [h.registered_iff] at hp
    have hold {q : P} (hq : Live q s.log) : (s.addPollable p).pos q = s.pos q :=
      update_of_ne (by rintro rfl; exact hp hq) _ _
    rw [hold he, hold hc]
    exact hsub.trans (rest_add s p)
  | remove p =>
    obtain ⟨⟨hcall, -⟩, rfl⟩ := Lib.of_guard hs
    have hold : (s.removePollable p).pos = s.pos := by
      unfold removePollable
      split <;> rfl
    rw [hold] at hmem hmem' ⊢
    exact pair_remove h hcall hmem hmem' hsub

/-- A thread that visits the list is in no `poll()`. -/
theorem atPoll_of_visit [DecidableEq P] (hs : s.step .visit = some s') : s.atPoll = none := by
  refine Option.eq_none_iff_forall_ne_some.2 fun i hat => ?_
  obtain ⟨t, progress, hrun, hpc⟩ := atPoll_eq_some.1 hat
  obtain ⟨u, hrun', hs⟩ := Option.bind_eq_some_iff.1 hs
  obtain rfl := Option.some.inj (hrun.symm.trans hrun')
  unfold visit at hs
  rw [hpc] at hs
  nomatch hs

/-- What returns may call the loop before. -/
theorem callable_of_ret [DecidableEq P] {result : Bool} (hs : s.step (.ret result) = some s') :
    s.callable = true := by
  obtain ⟨t, hrun, hs⟩ := Option.bind_eq_some_iff.1 hs
  unfold ret at hs
  unfold callable
  rw [hrun]
  dsimp only
  split at hs
  · rfl
  · rfl
  · nomatch hs

/-- What an addition or a removal leaves: the threads, and where the others are found. -/
structure Relisted (p : P) (s s' : State P n) : Prop where
  running : s'.running = s.running
  atPoll : s'.atPoll = s.atPoll
  pos : ∀ q, q ≠ p → s'.pos q = s.pos q

theorem add_step [DecidableEq P] (hs : s.step (.add p) = some s') :
    Relisted p s s' ∧ ∀ q, Live q s'.log ↔ p = q ∨ Live q s.log := by
  obtain ⟨-, rfl⟩ := Lib.of_guard hs
  exact ⟨⟨rfl, rfl, fun q hq => update_of_ne hq _ _⟩, fun q => Iff.rfl⟩

theorem remove_step [DecidableEq P] (h : Inv s) (hs : s.step (.remove p) = some s') :
    Relisted p s s' ∧ ∀ q, Live q s'.log ↔ p ≠ q ∧ Live q s.log := by
  obtain ⟨⟨-, hp⟩, rfl⟩ := Lib.of_guard hs
  obtain ⟨ref, href⟩ := exists_deref (h.pos_mem (h.registered_iff.1 hp))
  unfold removePollable
  rw [href]
  exact ⟨⟨rfl, rfl, fun q _ => rfl⟩, fun q => Iff.rfl⟩

end Pollables

end NoxClassic.PollLoop
