/-
# The result set of a lookup

`Cnode_result` merges lists of rules lazily: `next` looks at the first rule of each list
that may be better than the best so far, drops rules that do not match, and takes the
best.  A list that is used up gives its slot to the last one.

`next_spec`: where every list is sorted, `next` takes a matching rule of lowest priority,
or there is none left.  `drain_spec`: going on until there is none gives the matching
rules, by priority.
-/

import NoxClassic.Classifier.Model
import Mathlib.Data.List.Perm.Basic

namespace NoxClassic.Classifier

open List Option

variable {ε α : Type}

/-- The list is sorted by priority. -/
def Sorted (rs : List (Rule ε α)) : Prop :=
  rs.Pairwise fun r s => r.priority ≤ s.priority

/-- The rule matches the data. -/
def hit (q : Query ε) (r : Rule ε α) : Bool :=
  q.matchesRule r.id r.expr = some true

namespace CnodeResult

/-- The slots in use. -/
def live (res : CnodeResult ε α) : List (Slot ε α) :=
  res.traversed.take res.numLists

/-- The slots in use hold rules, by priority, and a slot that says so has a match first. -/
structure Valid (q : Query ε) (res : CnodeResult ε α) : Prop where
  le : res.numLists ≤ res.traversed.length
  rules : ∀ s ∈ res.live, s.rules ≠ [] ∧ Sorted s.rules
  isMatch : ∀ s ∈ res.live, s.isMatch = true → ∀ r rest, s.rules = r :: rest → hit q r = true

theorem valid_empty (q : Query ε) : Valid q (empty : CnodeResult ε α) :=
  ⟨Nat.le_refl 0, fun _ h => absurd h not_mem_nil, fun _ h => absurd h not_mem_nil⟩

variable {q : Query ε} {res : CnodeResult ε α}

theorem live_length (h : Valid q res) : res.live.length = res.numLists := by
  rw [live, length_take, Nat.min_eq_left h.le]

theorem getElem?_live {i : ℕ} (hi : i < res.numLists) : res.live[i]? = res.traversed[i]? := by
  rw [live, getElem?_take_of_lt hi]

/-! ### `push` -/

variable {rs : List (Rule ε α)} {r' : Rule ε α} {rounds : ℕ}

theorem live_push (h : Valid q res) (hrs : rs ≠ []) :
    (res.push rs).live = res.live ++ [⟨rs, false⟩] ∧
      (res.push rs).numLists ≤ (res.push rs).traversed.length := by
  have hle := h.le
  unfold push live
  rw [if_neg (by simpa using hrs)]
  split
  · next heq =>
    refine ⟨?_, ?_⟩
    · rw [heq, take_length, take_of_length_le]
      exact Nat.le_of_eq (length_append.trans (congrArg _ length_singleton))
    · dsimp only
      rw [length_append, length_singleton]
      omega
  · next hne =>
    have hlt : res.numLists < res.traversed.length := by omega
    refine ⟨?_, ?_⟩
    · rw [take_succ_eq_append_getElem (by rwa [length_set]), getElem_set_self,
        take_set, set_eq_of_length_le]
      rw [length_take]
      omega
    · rw [length_set]
      exact hlt

/-- A sorted list is put in a slot of its own. -/
theorem push_spec (h : Valid q res) (hrs : Sorted rs) :
    Valid q (res.push rs) ∧ (res.push rs).remaining = res.remaining ++ rs := by
  by_cases hnil : rs = []
  · subst hnil
    exact ⟨h, (append_nil _).symm⟩
  obtain ⟨hlive, hle⟩ := live_push h hnil
  refine ⟨⟨hle, ?_, ?_⟩, ?_⟩
  · rw [hlive]
    exact forall_mem_append.2 ⟨h.rules, forall_mem_singleton.2 ⟨hnil, hrs⟩⟩
  · rw [hlive]
    refine forall_mem_append.2 ⟨h.isMatch, forall_mem_singleton.2 fun hm => ?_⟩
    nomatch hm
  · show (res.push rs).live.flatMap Slot.rules = res.live.flatMap Slot.rules ++ rs
    rw [hlive, flatMap_append, flatMap_singleton]

/-! ### `advance` -/

/-- The last element in the place of another is the list without that one. -/
theorem set_last_perm {β : Type} (l : List β) (s : β) {i : ℕ} (hi : i ≤ l.length) :
    (l.set i s).Perm ((l ++ [s]).eraseIdx i) := by
  rcases Nat.lt_or_eq_of_le hi with hlt | rfl
  · rw [eraseIdx_append_of_lt_length hlt]
    exact (set_perm_cons_eraseIdx hlt s).trans (perm_append_singleton _ _).symm
  · rw [set_eq_of_length_le (Nat.le_refl _), eraseIdx_append_of_length_le (Nat.le_refl _),
      Nat.sub_self]
    simp

variable {q : Query ε} {res : CnodeResult ε α} {i : ℕ} {r : Rule ε α} {rest : List (Rule ε α)}
  {b : Bool}

/-- The slots after one has gone on: the others, and this one unless it is used up; those before it
stay where they are. -/
theorem advance_live (h : Valid q res) (hi : i < res.numLists) (rest : List (Rule ε α)) :
    (res.advance i rest).numLists ≤ (res.advance i rest).traversed.length ∧
    (res.numLists - 1 ≤ (res.advance i rest).numLists ∧
      (res.advance i rest).numLists ≤ res.numLists) ∧
    (res.advance i rest).live.Perm
      ((if rest.isEmpty then [] else [⟨rest, false⟩]) ++ res.live.eraseIdx i) ∧
    ∀ j < i, (res.advance i rest).live[j]? = res.live[j]? := by
  have hle := h.le
  unfold advance
  split
  · next hnil =>
    have hlast : res.numLists - 1 < res.traversed.length := by omega
    have hsplit : res.live = res.traversed.take (res.numLists - 1) ++
        [res.traversed[res.numLists - 1]] := by
      rw [live, ← take_succ_eq_append_getElem hlast]
      congr 1
      omega
    rw [getElem?_eq_getElem hlast]
    refine ⟨?_, ⟨Nat.le_refl _, Nat.sub_le _ _⟩, ?_, fun j hj => ?_⟩
    · dsimp only
      rw [length_set]
      omega
    · rw [nil_append, hsplit]
      show ((res.traversed.set i _).take (res.numLists - 1)).Perm _
      rw [take_set]
      refine set_last_perm _ _ ?_
      rw [length_take]
      omega
    · show ((res.traversed.set i _).take (res.numLists - 1))[j]? = _
      rw [getElem?_take_of_lt (by omega), getElem?_set_ne (by omega),
        getElem?_live (Nat.lt_trans hj hi)]
  · next hnil =>
    refine ⟨?_, ⟨Nat.sub_le _ _, Nat.le_refl _⟩, ?_, fun j hj => ?_⟩
    · rw [length_set]
      exact hle
    · show ((res.traversed.set i _).take res.numLists).Perm _
      rw [take_set]
      exact set_perm_cons_eraseIdx (by rw [length_take]; omega) _
    · show ((res.traversed.set i _).take res.numLists)[j]? = _
      rw [getElem?_take_of_lt (by omega), getElem?_set_ne (by omega),
        getElem?_live (Nat.lt_trans hj hi)]

/-- The slots, the one at an index first. -/
theorem live_perm {s : Slot ε α} (hs : res.live[i]? = some s) :
    res.live.Perm (s :: res.live.eraseIdx i) := by
  obtain ⟨hlt, rfl⟩ := List.getElem?_eq_some_iff.1 hs
  exact (getElem_cons_eraseIdx_perm hlt).symm

/-- **A slot that goes on leaves a valid result set without its first rule.** -/
theorem advance_spec (h : Valid q res) (hs : res.live[i]? = some ⟨r :: rest, b⟩) :
    Valid q (res.advance i rest) ∧ res.remaining.Perm (r :: (res.advance i rest).remaining) := by
  have hlt := (List.getElem?_eq_some_iff.1 hs).1
  rw [live_length h] at hlt
  obtain ⟨hle, -, hperm, -⟩ := advance_live h hlt rest
  have hsort : Sorted (r :: rest) := (h.rules _ (mem_of_getElem? hs)).2
  have hmem (s : Slot ε α) (hs' : s ∈ (res.advance i rest).live) :
      s = ⟨rest, false⟩ ∧ rest ≠ [] ∨ s ∈ res.live := by
    rcases mem_append.1 (hperm.mem_iff.1 hs') with hnew | hold
    · split at hnew
      · nomatch hnew
      · next hne => exact .inl ⟨mem_singleton.1 hnew, by simpa using hne⟩
    · exact .inr (mem_of_mem_eraseIdx hold)
  refine ⟨⟨hle, fun s hs' => ?_, fun s hs' hm => ?_⟩, ?_⟩
  · rcases hmem s hs' with ⟨rfl, hne⟩ | hold
    · exact ⟨hne, (pairwise_cons.1 hsort).2⟩
    · exact h.rules s hold
  · rcases hmem s hs' with ⟨rfl, -⟩ | hold
    · nomatch hm
    · exact h.isMatch s hold hm
  · have h1 : res.remaining.Perm (r :: rest ++ (res.live.eraseIdx i).flatMap Slot.rules) :=
      (live_perm hs).flatMap fun _ _ => .refl _
    have h2 : (res.advance i rest).remaining.Perm
        (rest ++ (res.live.eraseIdx i).flatMap Slot.rules) := by
      refine (hperm.flatMap fun _ _ => .refl _).trans ?_
      rw [flatMap_append]
      refine .of_eq (congrArg (· ++ _) ?_)
      split
      · next hnil => exact (isEmpty_iff.1 hnil).symm
      · exact flatMap_singleton ..
    exact h1.trans (h2.symm.cons r)

/-- A slot that is marked keeps its rules. -/
theorem remaining_mark (hs : res.live[i]? = some ⟨rs, b⟩) (b' : Bool) :
    remaining ⟨res.traversed.set i ⟨rs, b'⟩, res.numLists⟩ = res.remaining := by
  have hmap : (res.live.set i ⟨rs, b'⟩).map Slot.rules = res.live.map Slot.rules := by
    obtain ⟨hlt, hget⟩ := List.getElem?_eq_some_iff.1 hs
    rw [map_set]
    refine ext_getElem? fun j => ?_
    by_cases hj : i = j
    · rw [← hj, getElem?_set_self (by rwa [length_map]), getElem?_map, hs]
      rfl
    · rw [getElem?_set_ne hj]
  unfold remaining
  rw [take_set, flatMap_def, flatMap_def]
  exact congrArg flatten hmap

/-! ### `next` -/

/-- The loop of `next` before slot `i`: `L` are the rules that match and were left at the start.
The best rule so far is first in its slot, and no slot before `i` begins with a better one. -/
structure Scanning (q : Query ε) (L : List (Rule ε α)) (best : Option (Rule ε α × ℕ)) (i : ℕ)
    (res : CnodeResult ε α) : Prop where
  valid : Valid q res
  le : i ≤ res.numLists
  perm : (res.remaining.filter (hit q)).Perm L
  start : best = none → i = 0
  first : ∀ r k, best = some (r, k) → k < i ∧ ∃ rest, res.live[k]? = some ⟨r :: rest, true⟩
  lowest : ∀ r k, best = some (r, k) → ∀ j < i, ∀ r' rest b,
    res.live[j]? = some ⟨r' :: rest, b⟩ → r.priority ≤ r'.priority

namespace Scanning

variable {L : List (Rule ε α)} {best : Option (Rule ε α × ℕ)}

section

variable (h : Scanning q L best i res)
include h

/-- The first rule of slot `i` is better than those of the slots before. -/
theorem lt_of_better
    (hbest : (best.all fun b => r.priority < b.1.priority) = true) {j : ℕ} (hj : j < i)
    {rest' : List (Rule ε α)} {b' : Bool}
    (hs : res.live[j]? = some ⟨r' :: rest', b'⟩) : r.priority ≤ r'.priority := by
  cases best with
  | none => exact absurd (h.start rfl ▸ hj) (Nat.not_lt_zero j)
  | some p =>
    obtain ⟨r0, k⟩ := p
    have h1 : r.priority < r0.priority := by simpa using hbest
    exact Nat.le_trans (Nat.le_of_lt h1) (h.lowest r0 k rfl j hj r' rest' b' hs)

/-- The first rule of slot `i` matches and is the best so far. -/
theorem take (hi : i < res.numLists) (hs : res.live[i]? = some ⟨r :: rest, b⟩) (hr : hit q r = true)
    (hbest : (best.all fun b => r.priority < b.1.priority) = true) :
    Scanning q L (some (r, i)) (i + 1) ⟨res.traversed.set i ⟨r :: rest, true⟩, res.numLists⟩ := by
  have hlt := (List.getElem?_eq_some_iff.1 hs).1
  have hlive : live ⟨res.traversed.set i ⟨r :: rest, true⟩, res.numLists⟩ =
      res.live.set i ⟨r :: rest, true⟩ := take_set
  have hslot := h.valid.rules _ (mem_of_getElem? hs)
  refine ⟨⟨?_, ?_, ?_⟩, hi, ?_, nofun, ?_, ?_⟩
  · rw [length_set]
    exact h.valid.le
  · rw [hlive]
    intro s hs'
    rcases mem_or_eq_of_mem_set hs' with hold | rfl
    · exact h.valid.rules s hold
    · exact hslot
  · rw [hlive]
    intro s hs' hm
    rcases mem_or_eq_of_mem_set hs' with hold | rfl
    · exact h.valid.isMatch s hold hm
    · intro r' rest' heq
      exact (List.cons.inj heq).1 ▸ hr
  · rw [remaining_mark hs]
    exact h.perm
  · intro r' k heq
    obtain ⟨rfl, rfl⟩ := Prod.mk.inj (some.inj heq)
    refine ⟨Nat.lt_succ_self _, rest, ?_⟩
    rw [hlive, List.getElem?_set_self hlt]
  · intro r1 k heq j hj r' rest' b' hj'
    obtain ⟨rfl, rfl⟩ := Prod.mk.inj (some.inj heq)
    rw [hlive] at hj'
    rcases Nat.lt_or_eq_of_le (Nat.le_of_lt_succ hj) with hj | rfl
    · rw [List.getElem?_set_ne (Nat.ne_of_gt hj)] at hj'
      exact h.lt_of_better hbest hj hj'
    · rw [List.getElem?_set_self hlt, some_inj, Slot.mk.injEq] at hj'
      exact Nat.le_of_eq (congrArg Rule.priority (List.cons.inj hj'.1).1)

/-- The first rule of slot `i` does not match and is dropped. -/
theorem drop (hi : i < res.numLists) (hs : res.live[i]? = some ⟨r :: rest, b⟩)
    (hr : hit q r = false) : Scanning q L best i (res.advance i rest) := by
  obtain ⟨hvalid, hperm⟩ := advance_spec h.valid hs
  obtain ⟨-, ⟨hge, -⟩, -, hbefore⟩ := advance_live h.valid hi rest
  refine ⟨hvalid, by omega, ?_, h.start, fun r' k heq => ?_,
    fun r' k heq j hj r1 rest1 b1 hj' => ?_⟩
  · refine List.Perm.trans ?_ h.perm
    have := (hperm.filter (hit q)).symm
    rwa [filter_cons_of_neg (by rw [hr]; exact Bool.false_ne_true)] at this
  · obtain ⟨hk, rest', hk'⟩ := h.first r' k heq
    exact ⟨hk, rest', (hbefore k hk).trans hk'⟩
  · exact h.lowest r' k heq j hj r1 rest1 b1 ((hbefore j hj).symm.trans hj')

/-- The first rule of slot `i` is no better. -/
theorem skip (hi : i < res.numLists) (hs : res.live[i]? = some ⟨r :: rest, b⟩)
    (hbest : ¬ (best.all fun b => r.priority < b.1.priority) = true) :
    Scanning q L best (i + 1) res := by
  refine ⟨h.valid, hi, h.perm, fun hn => ?_, fun r' k heq => ?_,
    fun r' k heq j hj r1 rest1 b1 hj' => ?_⟩
  · rw [hn] at hbest
    exact absurd rfl hbest
  · obtain ⟨hk, hrest⟩ := h.first r' k heq
    exact ⟨Nat.lt_succ_of_lt hk, hrest⟩
  rcases Nat.lt_or_eq_of_le (Nat.le_of_lt_succ hj) with hj | rfl
  · exact h.lowest r' k heq j hj r1 rest1 b1 hj'
  · rw [hs, some_inj, Slot.mk.injEq] at hj'
    rw [heq] at hbest
    have : ¬ r.priority < r'.priority := by simpa using hbest
    rw [← (cons.inj hj'.1).1]
    exact Nat.not_lt.1 this

end

end Scanning

variable {L : List (Rule ε α)}

/-- **The loop of `next`** goes through all slots, or matching a rule stops the program. -/
theorem scan_spec {best : Option (Rule ε α × ℕ)}
    (h : Scanning q L best i res) (hrounds : res.remaining.length + (res.numLists - i) < rounds) :
    (scan q rounds i best res = none ∧ ∃ r ∈ res.remaining, q.matchesRule r.id r.expr = none) ∨
    ∃ best' res', scan q rounds i best res = some (best', res') ∧
      Scanning q L best' res'.numLists res' ∧ res'.remaining.Subperm res.remaining := by
  induction rounds generalizing i best res with
  | zero => exact absurd hrounds (Nat.not_lt_zero _)
  | succ rounds ih =>
    unfold scan
    by_cases hi : i < res.numLists
    · rw [if_pos hi, ← getElem?_live hi]
      have hlt : i < res.live.length := by rwa [live_length h.valid]
      have hslot := h.valid.rules _ (getElem_mem hlt)
      have hmatch := h.valid.isMatch _ (getElem_mem hlt)
      rw [getElem?_eq_getElem hlt]
      have hs := getElem?_eq_getElem hlt
      generalize res.live[i] = s at hs hslot hmatch
      obtain ⟨rs, isMatch⟩ := s
      cases rs with
      | nil => exact absurd rfl hslot.1
      | cons r rest =>
        have hmem : r ∈ res.remaining := mem_flatMap.2 ⟨_, mem_of_getElem? hs, mem_cons_self⟩
        dsimp only
        by_cases hbest : (best.all fun b => r.priority < b.1.priority) = true
        · rw [if_pos hbest]
          cases hm : (if isMatch = true then some true else q.matchesRule r.id r.expr) with
          | none =>
            refine .inl ⟨rfl, r, hmem, ?_⟩
            split at hm
            · nomatch hm
            · exact hm
          | some hit' =>
            cases hit' with
            | true =>
              have hr : hit q r = true := by
                split at hm
                · next hb => exact hmatch hb r rest rfl
                · exact decide_eq_true hm
              have := ih (h.take hi hs hr hbest) (by
                rw [remaining_mark hs]
                dsimp only
                omega)
              rwa [remaining_mark hs] at this
            | false =>
              have hr : hit q r = false := by
                split at hm
                · nomatch some.inj hm
                · exact decide_eq_false (by rw [hm]; decide)
              obtain ⟨-, hperm⟩ := advance_spec h.valid hs
              obtain ⟨-, ⟨-, hle⟩, -, -⟩ := advance_live h.valid hi rest
              have hlen := hperm.length_eq
              rw [length_cons] at hlen
              have hsub : (res.advance i rest).remaining.Subperm res.remaining :=
                (sublist_cons_self r _).subperm.trans hperm.symm.subperm
              rcases ih (h.drop hi hs hr) (by omega) with
                ⟨hn, r', hr', hab⟩ | ⟨b', res', he, hsc, hsp⟩
              · exact .inl ⟨hn, r', hsub.subset hr', hab⟩
              · exact .inr ⟨b', res', he, hsc, hsp.trans hsub⟩
        · rw [if_neg hbest]
          exact ih (h.skip hi hs hbest) (by omega)
    · rw [if_neg hi]
      have heq : i = res.numLists := Nat.le_antisymm h.le (Nat.not_lt.1 hi)
      exact .inr ⟨best, res, rfl, heq ▸ h, List.Subperm.refl _⟩

/-- In slots sorted and begun by no better rule, there is no better rule. -/
theorem Scanning.lowest_remaining {k : ℕ} (h : Scanning q L (some (r, k)) res.numLists res)
    (hr' : r' ∈ res.remaining) : r.priority ≤ r'.priority := by
  obtain ⟨⟨rs, b⟩, hs, hrs⟩ := mem_flatMap.1 hr'
  obtain ⟨j, hj, hget⟩ := getElem_of_mem hs
  have hslot := h.valid.rules _ hs
  cases rs with
  | nil => exact absurd rfl hslot.1
  | cons r1 rest =>
    have hlt : j < res.numLists := by rwa [← live_length h.valid]
    have h1 : r.priority ≤ r1.priority :=
      h.lowest r k rfl j hlt r1 rest b (List.getElem?_eq_some_iff.2 ⟨hj, hget⟩)
    rcases mem_cons.1 hrs with rfl | hrest
    · exact h1
    · exact Nat.le_trans h1 ((pairwise_cons.1 hslot.2).1 r' hrest)

/-- **`next`** says that there is no match left, or takes a match of lowest priority, or matching
a rule stops the program. -/
theorem next_spec (h : Valid q res) :
    (res.next q = none ∧ ∃ r ∈ res.remaining, q.matchesRule r.id r.expr = none) ∨
    (∃ res', res.next q = some (none, res') ∧ res.remaining.filter (hit q) = []) ∨
    ∃ r res', res.next q = some (some r, res') ∧ Valid q res' ∧
      (res.remaining.filter (hit q)).Perm (r :: res'.remaining.filter (hit q)) ∧
      (∀ r' ∈ res.remaining.filter (hit q), r.priority ≤ r'.priority) ∧
      (r :: res'.remaining).Subperm res.remaining := by
  have hstart : Scanning q (res.remaining.filter (hit q)) none 0 res :=
    ⟨h, Nat.zero_le _, .refl _, fun _ => rfl, nofun, nofun⟩
  unfold next
  rcases scan_spec hstart (Nat.lt_succ_self _) with ⟨hn, hab⟩ | ⟨best, res', he, hsc, hsub⟩
  · rw [Nat.sub_zero] at hn
    exact .inl ⟨by rw [hn]; rfl, hab⟩
  rw [Nat.sub_zero] at he
  rw [he]
  cases best with
  | none =>
    refine .inr (.inl ⟨res', rfl, ?_⟩)
    have hempty : res'.remaining = [] := by
      unfold remaining
      rw [hsc.start rfl]
      rfl
    have := hsc.perm
    rw [hempty] at this
    exact (perm_nil.1 this.symm)
  | some p =>
    obtain ⟨r, k⟩ := p
    obtain ⟨hk, rest, hs⟩ := hsc.first r k rfl
    obtain ⟨hvalid, hperm⟩ := advance_spec hsc.valid hs
    have htail : (((res'.traversed[k]?).map Slot.rules).getD []).tail = rest := by
      rw [← getElem?_live hk, hs]
      rfl
    have hr : hit q r = true := hsc.valid.isMatch _ (mem_of_getElem? hs) rfl r rest rfl
    refine .inr (.inr ⟨r, res'.advance k rest, ?_, hvalid, ?_, fun r' hr' => ?_, ?_⟩)
    · exact congrArg (fun rs => some (some r, res'.advance k rs)) htail
    · refine hsc.perm.symm.trans ((hperm.filter _).trans ?_)
      rw [filter_cons_of_pos hr]
    · exact hsc.lowest_remaining (mem_of_mem_filter (hsc.perm.symm.subset hr'))
    · exact hperm.symm.subperm.trans hsub

/-- **All that match, by priority**, or matching a rule stops the program. -/
theorem drain_spec (h : Valid q res) (hrounds : res.remaining.length < rounds) :
    (res.drain q rounds = none ∧ ∃ r ∈ res.remaining, q.matchesRule r.id r.expr = none) ∨
    ∃ l, res.drain q rounds = some l ∧ l.Perm (res.remaining.filter (hit q)) ∧ Sorted l := by
  induction rounds generalizing res with
  | zero => exact absurd hrounds (Nat.not_lt_zero _)
  | succ rounds ih =>
    unfold drain
    rcases next_spec h with ⟨hn, hab⟩ | ⟨res', hn, hnil⟩ | ⟨r, res', hn, hv, hperm, hlow, hsub⟩
    · rw [hn]
      exact .inl ⟨rfl, hab⟩
    · rw [hn, hnil]
      exact .inr ⟨[], rfl, .refl _, List.Pairwise.nil⟩
    rw [hn]
    have hlen := hsub.length_le
    rw [length_cons] at hlen
    have hsub' : res'.remaining ⊆ res.remaining := fun x hx => hsub.subset (mem_cons_of_mem _ hx)
    rcases ih hv (by omega) with ⟨hd, r', hr', hab⟩ | ⟨l, hd, hl, hsort⟩ <;> dsimp only
    · rw [hd]
      exact .inl ⟨rfl, r', hsub' hr', hab⟩
    · rw [hd]
      refine .inr ⟨r :: l, rfl, (hl.cons r).trans hperm.symm, ?_⟩
      refine pairwise_cons.2 ⟨fun r' hr' => ?_, hsort⟩
      exact hlow r' (hperm.symm.subset (mem_cons_of_mem _ (hl.subset hr')))

end CnodeResult

end NoxClassic.Classifier
