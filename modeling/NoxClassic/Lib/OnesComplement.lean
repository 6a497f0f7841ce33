/-
# The Internet checksum

The checksum of a header is the one's complement of the one's complement sum of its
words of 16 bits.  A sum that is longer than 16 bits is folded: what is above bit 16 is
added to what is below it, which keeps the sum modulo 65535 (`fold_mod`).

Code that adds the words in the byte order of a little-endian host and swaps the two
bytes of the result gets the same checksum (`swap16_complement`), because to swap the
bytes of a word is to multiply by 256 modulo 65535.  Adding each carry at once gives the
same sum as well (`fold_sumBe`).
-/

import NoxClassic.Lib.Reader

namespace NoxClassic.Lib

/-- The sum of the words in network order, the last one filled with a zero. -/
def sumBe : List UInt8 → ℕ
  | [] => 0
  | [x] => x.toNat * 256
  | x :: y :: b => x.toNat * 256 + y.toNat + sumBe b

/-- The sum of the words of a little-endian host. -/
def sumLe : List UInt8 → ℕ
  | [] => 0
  | [x] => x.toNat
  | x :: y :: b => x.toNat + y.toNat * 256 + sumLe b

/-- The sum of the words in network order where each carry is added at the low end. -/
def onesSum : List UInt8 → ℕ
  | [] => 0
  | [x] => x.toNat * 256
  | x :: y :: b =>
    let s := x.toNat * 256 + y.toNat + onesSum b
    s % 2 ^ 16 + s / 2 ^ 16

/-- A sum of up to 32 bits as a word. -/
def fold (n : ℕ) : ℕ :=
  let s := (n >>> 16) + n % 2 ^ 16
  (s + (s >>> 16)) % 2 ^ 16

/-- The two bytes of a word change places. -/
def swap16 (n : ℕ) : ℕ := n % 256 * 256 + n / 256

/-- The Internet checksum of bytes. -/
def internetChecksum (b : List UInt8) : ℕ := 65535 - fold (sumBe b)

/-- One carry is left after the first addition, and none after the second. -/
theorem fold_eq {n : ℕ} (h : n < 2 ^ 32) : ∃ q r, n = 65536 * q + r ∧ r < 65536 ∧ q < 65536 ∧
    fold n = if q + r < 65536 then q + r else q + r - 65535 := by
  refine ⟨n / 65536, n % 65536, (Nat.div_add_mod n 65536).symm, Nat.mod_lt _ (by decide),
    by omega, ?_⟩
  have hs : n / 65536 + n % 65536 ≤ 2 * 65535 := by omega
  unfold fold
  simp only [Nat.shiftRight_eq_div_pow, Nat.reducePow]
  generalize n / 65536 + n % 65536 = s at hs ⊢
  split_ifs <;> omega

theorem fold_mod {n : ℕ} (h : n < 2 ^ 32) : fold n % 65535 = n % 65535 := by
  obtain ⟨q, r, hn, hr, hq, hfold⟩ := fold_eq h
  rw [hfold]
  split_ifs <;> omega

theorem fold_pos {n : ℕ} (h : n < 2 ^ 32) (hpos : 0 < n) : 0 < fold n := by
  obtain ⟨q, r, hn, hr, hq, hfold⟩ := fold_eq h
  rw [hfold]
  split_ifs <;> omega

theorem fold_lt (n : ℕ) : fold n < 2 ^ 16 := Nat.mod_lt _ (by decide)

theorem sum_le (b : List UInt8) :
    2 * sumLe b ≤ 65535 * (b.length + 1) ∧ 2 * sumBe b ≤ 65535 * (b.length + 1) := by
  induction b using sumLe.induct with
  | case1 => exact ⟨Nat.zero_le _, Nat.zero_le _⟩
  | case2 x =>
    have := x.toNat_lt
    simp only [sumLe, sumBe, List.length_singleton]
    omega
  | case3 x y b ih =>
    have := x.toNat_lt
    have := y.toNat_lt
    simp only [sumLe, sumBe, List.length_cons]
    omega

theorem onesSum_sumBe (b : List UInt8) : onesSum b < 65536 ∧
    onesSum b % 65535 = sumBe b % 65535 ∧ (onesSum b = 0 ↔ sumBe b = 0) := by
  induction b using sumBe.induct with
  | case1 => exact ⟨by decide, rfl, Iff.rfl⟩
  | case2 x =>
    have := x.toNat_lt
    exact ⟨by simp only [onesSum]; omega, rfl, Iff.rfl⟩
  | case3 x y b ih =>
    have := x.toNat_lt
    have := y.toNat_lt
    simp only [onesSum, sumBe]
    omega

/-- **Carries may be added at the end.** -/
theorem fold_sumBe {b : List UInt8} (h : sumBe b < 2 ^ 32) : fold (sumBe b) = onesSum b := by
  obtain ⟨hlt, hmod, hzero⟩ := onesSum_sumBe b
  have hfold := fold_mod h
  have hfold' := fold_lt (sumBe b)
  by_cases hs : sumBe b = 0
  · rw [hs, hzero.2 hs]
    rfl
  · have hpos := fold_pos h (Nat.pos_of_ne_zero hs)
    omega

/-- The two sums differ by a factor of 256 modulo 65535, and vanish together. -/
theorem sumLe_sumBe (b : List UInt8) :
    (256 * sumLe b) % 65535 = sumBe b % 65535 ∧ (sumLe b = 0 ↔ sumBe b = 0) := by
  induction b using sumLe.induct with
  | case1 => exact ⟨rfl, Iff.rfl⟩
  | case2 x =>
    simp only [sumLe, sumBe]
    omega
  | case3 x y b ih =>
    simp only [sumLe, sumBe]
    omega

/-- **The checksum does not depend on the byte order of the host.** -/
theorem swap16_complement {b : List UInt8} (h : b.length < 2 ^ 17) :
    swap16 (65535 - fold (sumLe b)) = internetChecksum b := by
  obtain ⟨hmod, hzero⟩ := sumLe_sumBe b
  have hsum := sum_le b
  have hle : sumLe b < 2 ^ 32 := by omega
  have hbe : sumBe b < 2 ^ 32 := by omega
  have h1 := fold_mod hle
  have h2 := fold_mod hbe
  have hlt1 := fold_lt (sumLe b)
  have hlt2 := fold_lt (sumBe b)
  unfold internetChecksum swap16
  by_cases hs : sumLe b = 0
  · rw [hs, hzero.1 hs]
    rfl
  · have hp1 := fold_pos hle (Nat.pos_of_ne_zero hs)
    have hp2 := fold_pos hbe (Nat.pos_of_ne_zero fun h0 => hs (hzero.2 h0))
    omega

end NoxClassic.Lib
