/-
# The checksum of `packet_utils`

`checksum` adds the words of the host, which may keep either byte of a word first, folds
the sum twice and swaps the bytes of the result where the host needs it.  On both kinds of
hosts this is the Internet checksum, as long as the sum has no more than 32 bits, and an IP
header with the checksum that `ipv4.hdr` computes sums up to a word of ones.
-/

import NoxClassic.Packet.Print
import NoxClassic.Packet.Robust

namespace NoxClassic.Packet

open List Lib

/-- `checksum` of all words, on a host that keeps the high byte of a word first or not. -/
def checksumOn (big : Bool) (data : Bytes) (start : ℕ) : ℕ :=
  let word := 65535 - fold (start + if big then sumBe data else sumLe data)
  if big then word else swap16 word

/-- `ipv4.hdr` on such a host. -/
def ipv4HdrOn (big : Bool) (f : Ipv4) : Except Exn Bytes := do
  let data ← ipv4Bytes f 0
  ipv4Bytes f (checksumOn big data 0)

theorem checksumOn_eq (big : Bool) {data : Bytes} (h : data.length < 2 ^ 17) :
    checksumOn big data 0 = 65535 - onesSum data := by
  have hle := (sum_le data).2
  have hsum : internetChecksum data = 65535 - onesSum data := by
    unfold internetChecksum
    rw [fold_sumBe (by omega)]
  unfold checksumOn
  rw [zero_add, ← hsum]
  cases big with
  | false => exact swap16_complement h
  | true => rfl

theorem packed_eq_ok {fs : List (ℕ × ℕ)} {b : Bytes} (h : packed fs = .ok b) :
    (∀ p ∈ fs, p.2 < 256 ^ p.1) ∧ b = fs.flatMap fun p => beBytes p.1 p.2 := by
  have hpack : pack fs = some b := by
    unfold packed at h
    cases hp : pack fs with rw [hp] at h
    | none => nomatch h
    | some c => rw [Except.ok.inj h]
  clear h
  induction fs generalizing b with
  | nil =>
    cases hpack
    exact ⟨nofun, rfl⟩
  | cons f fs ih =>
    simp only [pack] at hpack
    split_ifs at hpack with hlt
    obtain ⟨rest, hrest, rfl⟩ := Option.map_eq_some_iff.1 hpack
    obtain ⟨hall, rfl⟩ := ih hrest
    exact ⟨forall_mem_cons.2 ⟨hlt, hall⟩, rfl⟩

/-- The checksum of a header adds to its sum. -/
theorem sumBe_ipv4Bytes {f : Ipv4} {csum : ℕ} {data b : Bytes} (hdata : ipv4Bytes f 0 = .ok data)
    (hb : ipv4Bytes f csum = .ok b) :
    data.length = 20 ∧ b.length = 20 ∧ sumBe b = sumBe data + csum := by
  obtain ⟨-, rfl⟩ := packed_eq_ok hdata
  obtain ⟨hlt, rfl⟩ := packed_eq_ok hb
  have hcsum : csum < 256 ^ 2 := hlt (2, csum) (by simp)
  simp [beBytes, sumBe]
  omega

/-- **The Internet checksum**, on either kind of host, and a header that has it. -/
theorem checksum_rfc (big : Bool) :
    (∀ data : Bytes, data.length < 2 ^ 17 → checksumOn big data 0 = 65535 - onesSum data) ∧
      ∀ f b, ipv4HdrOn big f = .ok b → onesSum b = 65535 := by
  refine ⟨fun data h => checksumOn_eq big h, fun f b h => ?_⟩
  obtain ⟨data, hdata, hb⟩ := bind_eq_ok.1 h
  obtain ⟨hlen, hlen', hsum⟩ := sumBe_ipv4Bytes hdata hb
  rw [checksumOn_eq big (by omega)] at hsum
  obtain ⟨hlt, hmod, hzero⟩ := onesSum_sumBe data
  obtain ⟨hlt', hmod', hzero'⟩ := onesSum_sumBe b
  omega

/-- Three bytes, and the header of a TCP segment. -/
theorem checksum_rfc_bytes : checksumOn true [1, 2, 3] 0 = 64509 ∧
    onesSum [0x45, 0, 0, 40, 0, 7, 0, 0, 64, 6, 0x7a, 0xc7, 0, 0, 0, 1, 0, 0, 0, 2] = 65535 :=
  ⟨(checksum_rfc true).1 [1, 2, 3] (by decide),
    (checksum_rfc false).2 ⟨4, 5, 0, 40, 7, 0, 0, 64, 6, 0, 1, 2⟩ _ (by decide +kernel)⟩

end NoxClassic.Packet
