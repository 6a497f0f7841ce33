/-
# Time values

`src/lib/timeval.cc`: a `timeval` is a pair of seconds and microseconds,
compared by `timeval_compare`, seconds first.  `operator-` has a floor of zero,
and `operator+` carries at most one second.  The fields are `long`s; the model
has them in `ℤ`, and only the conversions from and to milliseconds depend on where
they end: those saturate, and have no value where an operation overflows.
-/

import Mathlib.Data.Int.Order.Basic
import Mathlib.Algebra.Group.Int.Defs

namespace NoxClassic.Dispatch

open Option

/-- `struct timeval`. -/
structure Timeval where
  sec : ℤ
  usec : ℤ
  deriving DecidableEq, Repr

namespace Timeval

/-- `timeval_compare`. -/
def compare (x y : Timeval) : ℤ :=
  if x.sec ≠ y.sec then (if x.sec < y.sec then -1 else 1)
  else if x.usec ≠ y.usec then (if x.usec < y.usec then -1 else 1)
  else 0

instance : LE Timeval := ⟨fun x y => compare x y ≤ 0⟩

instance : LT Timeval := ⟨fun x y => compare x y < 0⟩

instance : DecidableLE Timeval := fun x y => inferInstanceAs (Decidable (compare x y ≤ 0))

instance : DecidableLT Timeval := fun x y => inferInstanceAs (Decidable (compare x y < 0))

theorem le_iff (x y : Timeval) : x ≤ y ↔ x.sec < y.sec ∨ x.sec = y.sec ∧ x.usec ≤ y.usec := by
  change compare x y ≤ 0 ↔ _
  unfold compare
  split_ifs <;> omega

theorem lt_iff (x y : Timeval) : x < y ↔ x.sec < y.sec ∨ x.sec = y.sec ∧ x.usec < y.usec := by
  change compare x y < 0 ↔ _
  unfold compare
  split_ifs <;> omega

theorem eq_iff (x y : Timeval) : x = y ↔ x.sec = y.sec ∧ x.usec = y.usec := by
  cases x; cases y; simp

/-- The comparison operators of `timeval.hh` are those of a linear order. -/
instance : LinearOrder Timeval where
  le_refl x := by rw [le_iff]; omega
  le_trans x y z := by simp only [le_iff]; omega
  lt_iff_le_not_ge x y := by simp only [le_iff, lt_iff]; omega
  le_antisymm x y := by simp only [le_iff, eq_iff]; omega
  le_total x y := by simp only [le_iff]; omega
  toDecidableLE := inferInstance
  toDecidableLT := inferInstance

/-- `operator+`. -/
def add (x y : Timeval) : Timeval :=
  if x.usec + y.usec ≥ 1000000 then ⟨x.sec + y.sec + 1, x.usec + y.usec - 1000000⟩
  else ⟨x.sec + y.sec, x.usec + y.usec⟩

/-- `operator-`, zero where the difference would be negative. -/
def sub (x y : Timeval) : Timeval :=
  if x ≤ y then ⟨0, 0⟩
  else if x.usec ≥ y.usec then ⟨x.sec - y.sec, x.usec - y.usec⟩
  else ⟨x.sec - y.sec - 1, 1000000 + x.usec - y.usec⟩

instance : Add Timeval := ⟨add⟩

instance : Sub Timeval := ⟨sub⟩

end Timeval

/-! ### Milliseconds -/

/-- `LONG_MAX`, which is `TYPE_MAXIMUM(time_t)` too. -/
def longMax : ℤ := 2 ^ 63 - 1

/-- `LONG_MIN`. -/
def longMin : ℤ := -2 ^ 63

/-- The value of a `long` expression, unless it overflows. -/
def long (x : ℤ) : Option ℤ := if longMin ≤ x ∧ x ≤ longMax then some x else none

/-- Milliseconds from seconds, saturated at both ends, and the rest that `add` adds. -/
def secToMs (sec : ℤ) (add : ℤ → Option ℤ) : Option ℤ :=
  if sec ≥ longMax.tdiv 1000 - 999 then some longMax
  else if sec ≤ longMin.tdiv 1000 + 999 then some longMin
  else (long (sec * 1000)).bind add

/-- The seconds of `ms`, and what is left in units of which a millisecond has `unit`, without
its sign. -/
def secFromMs (unit ms : ℤ) : Option (ℤ × ℤ) :=
  if ms ≥ 0 then
    if ms.tdiv 1000 < longMax then (long (ms.tmod 1000 * unit)).map (ms.tdiv 1000, ·)
    else some (longMax, 0)
  else if ms.tdiv 1000 > longMin then (long (-ms.tmod 1000 * unit)).map (ms.tdiv 1000, ·)
  else some (longMin, 0)

/-- `timeval_to_ms`. -/
def timevalToMs (x : Timeval) : Option ℤ :=
  secToMs x.sec fun ms => (long (x.usec + 500)).bind fun rest =>
    if x.sec ≥ 0 then long (ms + rest.tdiv 1000) else long (ms - rest.tdiv 1000)

/-- `timeval_from_ms`. -/
def timevalFromMs (ms : ℤ) : Option Timeval := (secFromMs 1000 ms).map fun p => ⟨p.1, p.2⟩

/-- `timespec_to_ms`, of the seconds and the nanoseconds. -/
def timespecToMs (x : ℤ × ℤ) : Option ℤ :=
  secToMs x.1 fun ms =>
    (long (if x.2 ≥ 0 then x.2 + 500000 else x.2 - 500000)).bind fun rest =>
      long (ms + rest.tdiv 1000000)

/-- `timespec_from_ms`. -/
def timespecFromMs (ms : ℤ) : Option (ℤ × ℤ) :=
  (if ms ≥ 0 then some ms else long (ms - 999)).bind (secFromMs 1000000)

/-- Neither of the conversions of `ms` and back saturates. -/
def Unsaturated (ms : ℤ) : Prop :=
  longMin.tdiv 1000 + 999 < (ms - 999).tdiv 1000 ∧ ms.tdiv 1000 < longMax.tdiv 1000 - 999

instance (ms : ℤ) : Decidable (Unsaturated ms) := inferInstanceAs (Decidable (_ ∧ _))

theorem Unsaturated.mem {ms : ℤ} (h : Unsaturated ms) :
    -9223372036853775001 < ms ∧ ms < 9223372036853776000 := by
  have hmax : longMax.tdiv 1000 = 9223372036854775 := rfl
  have hmin : longMin.tdiv 1000 = -9223372036854775 := rfl
  rw [Unsaturated, hmax, hmin] at h
  have hsum := Int.tdiv_mul_add_tmod ms 1000
  have hlt := Int.tmod_lt_of_pos ms (show (0 : ℤ) < 1000 by decide)
  have hsum' := Int.tdiv_mul_add_tmod (ms - 999) 1000
  have hgt' := Int.lt_tmod_of_pos (ms - 999) (show (0 : ℤ) < 1000 by decide)
  omega

theorem long_of_mem {x : ℤ} (hlo : -9223372036854775000 ≤ x) (hhi : x ≤ 9223372036854775000) :
    long x = some x := by
  refine if_pos ⟨?_, ?_⟩
  · unfold longMin
    omega
  · unfold longMax
    omega

/-- Outside the zones nothing overflows.  The division of C truncates, so that the remainder has
the sign of the number. -/
theorem secFromMs_spec {unit : ℤ} (hunit : unit = 1000 ∨ unit = 1000000) (ms : ℤ)
    (h : -9223372036853776000 < ms ∧ ms < 9223372036853776000) : ∃ sec rest,
    secFromMs unit ms = some (sec, rest * unit) ∧
      (∀ add, secToMs sec add = add (sec * 1000)) ∧ 0 ≤ rest ∧ rest < 1000 ∧
      (0 ≤ ms ∧ ms = sec * 1000 + rest ∨ ms < 0 ∧ ms = sec * 1000 - rest) := by
  have hsum := Int.tdiv_mul_add_tmod ms 1000
  have hgt := Int.lt_tmod_of_pos ms (show (0 : ℤ) < 1000 by decide)
  have hlt := Int.tmod_lt_of_pos ms (show (0 : ℤ) < 1000 by decide)
  have hsign : 0 ≤ ms ∧ 0 ≤ ms.tmod 1000 ∨ ms < 0 ∧ 0 ≤ -ms.tmod 1000 := by
    rcases lt_or_ge ms 0 with hneg | hpos
    · exact .inr ⟨hneg, Int.neg_tmod ms 1000 ▸ Int.tmod_nonneg 1000 (by omega)⟩
    · exact .inl ⟨hpos, Int.tmod_nonneg 1000 hpos⟩
  have hto (add : ℤ → Option ℤ) : secToMs (ms.tdiv 1000) add = add (ms.tdiv 1000 * 1000) := by
    have hmax : longMax.tdiv 1000 = 9223372036854775 := rfl
    have hmin : longMin.tdiv 1000 = -9223372036854775 := rfl
    unfold secToMs
    rw [if_neg (by omega), if_neg (by omega), long_of_mem (by omega) (by omega)]
    rfl
  unfold secFromMs
  rcases hsign with ⟨hpos, hle⟩ | ⟨hneg, hle⟩
  · refine ⟨_, ms.tmod 1000, ?_, hto, hle, hlt, .inl ⟨hpos, hsum.symm⟩⟩
    rw [if_pos hpos, if_pos (by unfold longMax; omega)]
    rcases hunit with rfl | rfl <;> rw [long_of_mem (by omega) (by omega)] <;> rfl
  · refine ⟨_, -ms.tmod 1000, ?_, hto, hle, by omega, .inr ⟨hneg, by omega⟩⟩
    rw [if_neg (not_le.2 hneg), if_pos (by unfold longMin; omega)]
    rcases hunit with rfl | rfl <;> rw [long_of_mem (by omega) (by omega)] <;> rfl

/-- **Milliseconds survive the conversions**, without overflow, to a `timeval` unless they are
negative and less than a second, and to a `timespec` unless they are negative. -/
theorem ms_round_trip (ms : ℤ) (h : Unsaturated ms) :
    (∃ back, (timevalFromMs ms).bind timevalToMs = some back ∧ (back = ms ↔ ms ≤ -1000 ∨ 0 ≤ ms)) ∧
    ∃ back, (timespecFromMs ms).bind timespecToMs = some back ∧ (back = ms ↔ 0 ≤ ms) := by
  have hmem := h.mem
  refine ⟨?_, ?_⟩
  · obtain ⟨sec, rest, hsplit, hto, hlo, hhi, hms⟩ := secFromMs_spec (.inl rfl) ms (by omega)
    unfold timevalFromMs timevalToMs
    rw [hsplit]
    simp only [map_some, bind_some, hto]
    rw [long_of_mem (by omega) (by omega), bind_some, Int.tdiv_eq_ediv_of_nonneg (by omega)]
    split_ifs <;> exact ⟨_, long_of_mem (by omega) (by omega), by omega⟩
  · have hback (ms' : ℤ) (h' : -9223372036853776000 < ms' ∧ ms' < 9223372036853776000) :
        ∃ sec rest, (secFromMs 1000000 ms').bind timespecToMs = some (sec * 1000 + rest) ∧
          (0 ≤ ms' ∧ ms' = sec * 1000 + rest ∨ ms' < 0 ∧ ms' = sec * 1000 - rest) := by
      obtain ⟨sec, rest, hsplit, hto, hlo, hhi, hms⟩ := secFromMs_spec (.inr rfl) ms' h'
      refine ⟨sec, rest, ?_, hms⟩
      rw [hsplit, bind_some]
      unfold timespecToMs
      rw [hto, if_pos (by omega), long_of_mem (by omega) (by omega), bind_some,
        Int.tdiv_eq_ediv_of_nonneg (by omega), long_of_mem (by omega) (by omega)]
      congr 1
      omega
    unfold timespecFromMs
    split_ifs
    · obtain ⟨sec, rest, hto, hms⟩ := hback ms (by omega)
      exact ⟨_, hto, by omega⟩
    · rw [long_of_mem (by omega) (by omega), bind_some]
      obtain ⟨sec, rest, hto, hms⟩ := hback (ms - 999) (by omega)
      exact ⟨_, hto, by omega⟩

theorem ms_round_trip_second : Unsaturated (-1000) ∧
    (∃ back, (timevalFromMs (-1000)).bind timevalToMs = some back ∧
      (back = -1000 ↔ (-1000 : ℤ) ≤ -1000 ∨ (0 : ℤ) ≤ -1000)) ∧
    ∃ back, (timespecFromMs (-1000)).bind timespecToMs = some back ∧
      (back = -1000 ↔ (0 : ℤ) ≤ -1000) :=
  ⟨by decide, ms_round_trip (-1000) (by decide)⟩

/-- **One millisecond before zero comes back as one after it**, or as one second before it. -/
theorem negative_ms_lost : Unsaturated (-1) ∧
    (timevalFromMs (-1)).bind timevalToMs = some 1 ∧
    (timespecFromMs (-1)).bind timespecToMs = some (-1000) := by
  decide

end NoxClassic.Dispatch
