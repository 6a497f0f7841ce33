/-
# Fields in network order

A header is a list of fields of fixed widths in network order.  `pack` writes such a
list, and fails on a value that does not fit its width; `fieldsOf` reads the values back
from bytes.  Writing what was read gives back the bytes (`pack_fieldsOf`), which is all
that a printer has to show about a fixed header.
-/

import NoxClassic.Lib.Reader
import Mathlib.Tactic.Positivity

namespace NoxClassic.Lib

open List Nat

/-- The bytes from `i` up to `j`, as far as there are any. -/
def slice (b : List UInt8) (i j : ℕ) : List UInt8 := (b.drop i).take (j - i)

/-- The `k` bytes of a number in network order. -/
def beBytes : ℕ → ℕ → List UInt8
  | 0, _ => []
  | k + 1, n => beBytes k (n / 256) ++ [UInt8.ofNat n]

/-- Fields, each with its width and its value, in network order. -/
def pack : List (ℕ × ℕ) → Option (List UInt8)
  | [] => some []
  | (w, n) :: fs => if n < 256 ^ w then (pack fs).map (beBytes w n ++ ·) else none

/-- The fields of these widths from an offset on. -/
def fieldsOf (b : List UInt8) : List ℕ → ℕ → List (ℕ × ℕ)
  | [], _ => []
  | w :: ws, i => (w, field b i w) :: fieldsOf b ws (i + w)

section Slice

variable {b c : List UInt8} {i j k : ℕ}

theorem length_slice (hj : j ≤ b.length) : (slice b i j).length = j - i := by
  unfold slice
  rw [length_take, length_drop]
  omega

theorem slice_append_slice (hij : i ≤ j) (hjk : j ≤ k) :
    slice b i j ++ slice b j k = slice b i k := by
  unfold slice
  have hdrop : b.drop j = (b.drop i).drop (j - i) := by
    rw [drop_drop]
    congr 1
    omega
  rw [hdrop, ← take_add]
  congr 1
  omega

theorem slice_append_drop (hij : i ≤ j) : slice b i j ++ b.drop j = b.drop i := by
  unfold slice
  have hdrop : b.drop j = (b.drop i).drop (j - i) := by
    rw [drop_drop]
    congr 1
    omega
  rw [hdrop, take_append_drop]

/-- A field within the slice is a field of the bytes. -/
theorem field_slice {off w : ℕ} (h : off + w ≤ j - i) :
    field (slice b i j) off w = field b (i + off) w := by
  unfold field slice
  rw [drop_take, take_take, drop_drop, min_eq_left (by omega)]

end Slice

section Pack

/-- Writing the value of bytes gives back the bytes. -/
theorem beBytes_be (l : List UInt8) : beBytes l.length (be l) = l := by
  induction l using List.reverseRecOn with
  | nil => rfl
  | append_singleton l x ih =>
    have hx := x.toNat_lt
    have hdiv : (be l * 256 + x.toNat) / 256 = be l := by omega
    have hbyte : UInt8.ofNat (be l * 256 + x.toNat) = x := by
      apply UInt8.toNat.inj
      rw [UInt8.toNat_ofNat']
      omega
    rw [length_append, length_singleton,
        show be (l ++ [x]) = be l * 256 + x.toNat from foldl_append]
    unfold beBytes
    rw [hdiv, hbyte, ih]

theorem beBytes_field {b : List UInt8} {i w : ℕ} (h : i + w ≤ b.length) :
    beBytes w (field b i w) = slice b i (i + w) := by
  have hlen : ((b.drop i).take w).length = w := by
    rw [length_take, length_drop]
    omega
  have hbytes := beBytes_be ((b.drop i).take w)
  rw [hlen] at hbytes
  unfold slice field
  rw [hbytes, Nat.add_sub_cancel_left]

/-- **Writing what was read gives back the bytes.** -/
theorem pack_fieldsOf (b : List UInt8) (ws : List ℕ) (i : ℕ) (h : i + ws.sum ≤ b.length) :
    pack (fieldsOf b ws i) = some (slice b i (i + ws.sum)) := by
  induction ws generalizing i with
  | nil =>
    unfold slice
    rw [sum_nil, Nat.add_zero, Nat.sub_self, take_zero]
    rfl
  | cons w ws ih =>
    rw [sum_cons, ← Nat.add_assoc] at h ⊢
    unfold fieldsOf pack
    rw [if_pos (field_lt b i w), ih (i + w) h, Option.map_some, beBytes_field (by omega),
      slice_append_slice (Nat.le_add_right _ _) (Nat.le_add_right _ _)]

end Pack

end NoxClassic.Lib
