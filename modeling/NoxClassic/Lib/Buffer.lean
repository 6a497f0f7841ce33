/-
# Stores into a buffer

A buffer that is filled from the front: `store buf off b` is the buffer after `b`
was copied to offset `off`, as `memcpy` and `read` do.  The receivers of this
development keep a message in a part of such a buffer.
-/

import Mathlib.Data.Vector.Defs
import Mathlib.Order.MinMax
import Mathlib.Data.List.Basic

namespace NoxClassic.Lib

open List

variable {α : Type*} {buf b : List α} {off k : ℕ}

/-- The buffer after `b` was stored at offset `off`. -/
def store (buf : List α) (off : ℕ) (b : List α) : List α :=
  buf.take off ++ b ++ buf.drop (off + b.length)

theorem length_store (h : off + b.length ≤ buf.length) : (store buf off b).length = buf.length := by
  unfold store
  simp only [length_append, length_take, length_drop]
  omega

section

variable (h : off ≤ buf.length)
include h

/-- The buffer up to the end of what was stored. -/
theorem take_store :
    (store buf off b).take (off + b.length) = buf.take off ++ b := by
  have hlen : (buf.take off ++ b).length = off + b.length := by
    rw [length_append, length_take_of_le h]
  unfold store
  rw [← hlen, take_left]

/-- What was stored first stays when more is stored behind it. -/
theorem take_store_of_le (hk : k ≤ off) :
    (store buf off b).take k = buf.take k := by
  have hkb : k ≤ (buf.take off).length := by
    rw [length_take_of_le h]
    exact hk
  unfold store
  rw [append_assoc, take_append_of_le_length hkb, take_take, min_eq_left hk]

/-- What lies behind the place that was stored to stays. -/
theorem drop_store (hk : off + b.length ≤ k) :
    (store buf off b).drop k = buf.drop k := by
  have hlen : (buf.take off ++ b).length = off + b.length := by
    rw [length_append, length_take_of_le h]
  unfold store
  rw [drop_append, hlen, drop_of_length_le (by rw [hlen]; exact hk), nil_append, drop_drop]
  congr 1
  omega

/-- What was stored is there. -/
theorem take_drop_store :
    ((store buf off b).drop off).take b.length = b := by
  unfold store
  rw [append_assoc, drop_left' (length_take_of_le h), take_left]

end

end NoxClassic.Lib
