/-
# Induction where a relation has no cycle

What holds of an element as soon as it holds of all it relates to holds of every element
from which finitely many are reached and none of these lies on a cycle.
-/

import Mathlib.Logic.Relation

namespace NoxClassic.Lib

open Relation

/-- **Induction along a relation without cycles.** -/
theorem acyclic_induction {α : Type*} [DecidableEq α] {r : α → α → Prop} {P : α → Prop}
    {l : List α} {a : α} (hl : ∀ b, ReflTransGen r a b → b ∈ l)
    (hacyclic : ∀ b, ReflTransGen r a b → ¬ TransGen r b b)
    (hstep : ∀ b, ReflTransGen r a b → (∀ c, r b c → P c) → P b) : P a := by
  -- what a successor reaches does not contain `a`
  induction hn : l.length generalizing l a with
  | zero =>
    rw [List.length_eq_zero_iff] at hn
    nomatch hn ▸ hl a .refl
  | succ n ih =>
    refine hstep a .refl fun c hac => ?_
    have hreach {b : α} (hb : ReflTransGen r c b) : ReflTransGen r a b := hb.head hac
    refine ih (l := l.erase a) (fun b hb => ?_) (fun b hb => hacyclic b (hreach hb))
      (fun b hb => hstep b (hreach hb)) ?_
    · refine (List.mem_erase_of_ne ?_).2 (hl b (hreach hb))
      rintro rfl
      exact hacyclic b .refl (TransGen.head' hac hb)
    · rw [List.length_erase_of_mem (hl a .refl), hn, Nat.add_sub_cancel]

end NoxClassic.Lib
