/-
# Lists up to order

Facts about permutations of lists that are put together from parts: a part that changes
inside others, a list cut into classes by a key, and elements picked by key, each as often
as the key is asked for.
-/

import Mathlib.Algebra.BigOperators.Group.Finset.Piecewise
import Mathlib.Data.List.Nodup

namespace NoxClassic.Lib

open List

variable {α β κ : Type*}

/-- What comes to a part comes to the whole. -/
theorem perm_append_middle {A A' : List α} (new : List α) (h : A.Perm (new ++ A')) (L R : List α) :
    (L ++ A ++ R).Perm (new ++ (L ++ A' ++ R)) := by
  have h1 : (L ++ A).Perm (new ++ (L ++ A')) := by
    refine (h.append_left L).trans ?_
    rw [← append_assoc, ← append_assoc]
    exact perm_append_comm.append_right A'
  rw [← append_assoc new]
  exact h1.append_right R

/-- The classes of a list, one after the other, are the list. -/
theorem flatMap_filter_perm (key : α → ℕ) {n : ℕ} {l : List α} (h : ∀ x ∈ l, key x < n) :
    ((range n).flatMap fun b => l.filter fun x => key x = b).Perm l := by
  classical
  refine perm_iff_count.2 fun a => ?_
  -- an element is in its class and in no other
  have hcount (b : ℕ) :
      count a (l.filter fun x => key x = b) = if b = key a then count a l else 0 := by
    split_ifs with hb
    · exact count_filter (by simp [hb])
    · exact count_eq_zero.2 (by simp [eq_comm, hb])
  rw [count_flatMap, Function.comp_def, funext hcount]
  refine (Finset.sum_ite_eq' (Finset.range n) (key a) fun _ => count a l).trans ?_
  split_ifs with ha
  · rfl
  · exact (count_eq_zero.2 fun hmem => ha (Finset.mem_range.2 (h a hmem))).symm

/-- **Elements picked by key.**  What is picked by the keys is the list, if what matters of an
element, `g`, is nothing or its key is asked for once. -/
theorem flatMap_find?_perm [DecidableEq κ] (key : α → κ) (g : α → List β) {l : List α}
    (hl : (l.map key).Nodup) {ks : List κ} (hks : ∀ x ∈ l, g x ≠ [] → ks.count (key x) = 1) :
    (ks.flatMap fun k => ((l.find? fun x => key x = k).map g).getD []).Perm (l.flatMap g) := by
  induction l with
  | nil => exact .of_eq (flatMap_eq_nil_iff.2 fun k _ => rfl)
  | cons x l ih =>
    rw [map_cons, nodup_cons] at hl
    have ih := ih hl.2 fun y hy => hks y (mem_cons_of_mem _ hy)
    -- no other element has the key of the first
    have hnone : (l.find? fun y => key y = key x) = none := by
      refine find?_eq_none.2 fun y hy hk => hl.1 ?_
      exact (of_decide_eq_true hk) ▸ mem_map_of_mem hy
    refine List.Perm.trans ?_ (ih.append_left (g x))
    have hx := hks x mem_cons_self
    by_cases hg : g x = []
    · refine .of_eq ?_
      rw [hg, nil_append]
      refine flatMap_congr fun k _ => ?_
      by_cases hk : key x = k
      · rw [find?_cons_of_pos (by simpa using hk), ← hk, hnone]
        exact hg
      · rw [find?_cons_of_neg (by simpa using hk)]
    · have hcount := hx hg
      have hmem : key x ∈ ks := count_pos_iff.1 (by rw [hcount]; exact Nat.one_pos)
      obtain ⟨ks1, ks2, rfl⟩ := append_of_mem hmem
      rw [count_append, count_cons_self] at hcount
      have hother {ks : List κ} (h : ks.count (key x) = 0) :
          (ks.flatMap fun k => (((x :: l).find? fun x => key x = k).map g).getD []) =
            ks.flatMap fun k => ((l.find? fun x => key x = k).map g).getD [] := by
        refine flatMap_congr fun k hk => ?_
        rw [find?_cons_of_neg]
        rintro he
        exact count_eq_zero.1 h ((of_decide_eq_true he) ▸ hk)
      rw [flatMap_append, flatMap_append, flatMap_cons, flatMap_cons,
        hother (by omega), hother (by omega), find?_cons_of_pos (by simp), hnone]
      exact perm_append_comm_assoc ..

end NoxClassic.Lib
