/-
# DHCP options

A segment of options holds pads and options, up to `END`.  `dhcp` reads the segment behind
the magic number.  It never gets to the segments in `file` and `sname`: `parseOptions`
takes the first byte of the overload option for its length.  A code that occurs twice and
the overload 1 raise exceptions, and `hdr` writes the `file` that `parse` cut out six bytes
too early.
-/

import NoxClassic.Packet.Print
import NoxClassic.Packet.Robust

namespace NoxClassic.Packet

open List Lib Nat

/-- The bytes of a segment of pads (`none`) and options, with a code and a value each. -/
def segmentBytes : List (Option (ℕ × Bytes)) → Bytes
  | [] => [255]
  | none :: items => 0 :: segmentBytes items
  | some (code, val) :: items => .ofNat code :: .ofNat val.length :: (val ++ segmentBytes items)

/-- The codes and the lengths fit their bytes. -/
def FitsSegment (items : List (Option (ℕ × Bytes))) : Prop :=
  ∀ x ∈ items.filterMap id, 0 < x.1 ∧ x.1 < 255 ∧ x.2.length < 256

/-- What stands in a segment is read, whatever comes behind its end. -/
theorem optionsOf_segmentBytes (rest : Bytes) (items : List (Option (ℕ × Bytes))) :
    ∀ n, FitsSegment items → (segmentBytes items).length ≤ n →
      optionsOf (n + 1) (segmentBytes items ++ rest) = items.filterMap id := by
  have hfield (x : UInt8) (l : Bytes) : field (x :: l) 0 1 = x.toNat := by simp [field, be]
  have hnext (x y : UInt8) (l : Bytes) : field (x :: y :: l) 1 1 = y.toNat := by simp [field, be]
  induction items with intro n hfits hn
  | nil => simp [segmentBytes, optionsOf, hfield]
  | cons x items ih =>
    obtain ⟨n, rfl⟩ : ∃ m, n = m + 1 :=
      Nat.exists_eq_succ_of_ne_zero fun hzero => by cases x <;> simp [segmentBytes, hzero] at hn
    have hn' : (segmentBytes items).length ≤ n := by
      cases x <;> simp [segmentBytes] at hn <;> omega
    cases x with
    | none =>
      rw [filterMap_cons_none rfl, ← ih n hfits hn', segmentBytes, cons_append, optionsOf]
      simp [hfield]
    | some x =>
      obtain ⟨code, val⟩ := x
      obtain ⟨⟨hpos, hcode, hlen⟩, hrest⟩ := forall_mem_cons.1 hfits
      have hcode' : (UInt8.ofNat code).toNat = code :=
        UInt8.toNat_ofNat_of_lt (hcode.trans (by decide))
      have hlen' : (UInt8.ofNat val.length).toNat = val.length := UInt8.toNat_ofNat_of_lt hlen
      rw [filterMap_cons, ← ih n hrest hn', segmentBytes, cons_append, cons_append,
        append_assoc, optionsOf]
      simp [hfield, hnext, hcode', hlen', slice, hpos.ne', hcode.ne, Nat.add_comm 2]

/-! ### Printing -/

section Print

variable {b c : Bytes}

theorem padTo_of_length {n : ℕ} (h : b.length = n) : padTo n b = b := by
  unfold padTo
  rw [take_of_length_le h.le, h, Nat.sub_self, replicate_zero, append_nil]

/-- A message is printed with the bytes from 102 on in the place of `file`. -/
theorem hdr_dhcp (h : 240 ≤ b.length) (options : List (ℕ × Bytes)) :
    hdr (.dhcp ⟨some (dhcpFields b (slice b 0 28)), some (b.drop 240), options⟩) =
      .ok (slice b 0 108 ++ (slice b 102 230 ++ b.drop 236)) := by
  have hlen : (slice b 0 28).length = 28 := length_slice (by omega)
  have hbuf : packed (fieldsOf (slice b 0 28) [1, 1, 1, 1, 4, 2, 2, 4, 4, 4, 4] 0) =
      .ok (slice b 0 28) := by
    unfold packed
    rw [pack_fieldsOf _ _ _ hlen.ge]
    exact congrArg _ (take_of_length_le hlen.le)
  have hchaddr : (slice b 28 44).length = 16 := length_slice (by omega)
  have hsname : (slice b 44 108).length = 64 := length_slice (by omega)
  have hmagic : (slice b 236 240).length = 4 := length_slice (by omega)
  -- the string of 134 bytes is cut off
  have hcut : padTo 128 (slice b 102 236) = slice b 102 230 := by
    have hfile : (slice b 102 236).length = 134 := length_slice (by omega)
    unfold padTo
    rw [hfile, replicate_zero, append_nil]
    unfold slice
    rw [take_take]
    rfl
  simp only [fieldsOf, zero_add, reduceAdd] at hbuf
  simp only [hdr, dhcpHdr, dhcpFields]
  rw [hbuf, padTo_of_length hchaddr, padTo_of_length hsname, padTo_of_length hmagic, hcut, ok_bind,
    slice_append_slice (by decide) (by decide), slice_append_slice (by decide) (by decide),
    append_assoc, append_assoc, slice_append_drop (by decide)]
  rfl

theorem hdr_dhcp_iff (h : 240 ≤ b.length) (options : List (ℕ × Bytes)) :
    hdr (.dhcp ⟨some (dhcpFields b (slice b 0 28)), some (b.drop 240), options⟩) = .ok b ↔
      slice b 102 230 = slice b 108 236 := by
  have hb : b = slice b 0 108 ++ (slice b 108 236 ++ b.drop 236) := by
    rw [slice_append_drop (by decide), slice_append_drop (by decide), drop_zero]
  have hlen : (slice b 102 230).length = (slice b 108 236).length := by
    rw [length_slice (by omega), length_slice (by omega)]
  rw [hdr_dhcp h, Except.ok.injEq]
  constructor
  · intro heq
    exact (append_inj (append_cancel_left (heq.trans hb)) hlen).1
  · intro hfile
    rw [hfile]
    exact hb.symm

end Print

/-! ### Decoding -/

/-- The value of the overload option, 0 where there is none. -/
def overload (options : List (ℕ × Bytes)) : ℕ :=
  match options.lookup 52 with
  | some val => field val 0 1
  | none => 0

/-- The options in the fields that the overload option names. -/
def overloaded (b : Bytes) (options : List (ℕ × Bytes)) : List (ℕ × Bytes) :=
  (if overload options = 1 ∨ overload options = 3 then segmentOptions (slice b 108 236) else []) ++
    if overload options = 2 ∨ overload options = 3 then segmentOptions (slice b 44 108) else []

/-- Options that come later change nothing exactly if their codes have occurred. -/
theorem lookup_append_iff {options more : List (ℕ × Bytes)} :
    (∀ code, options.lookup code = (options ++ more).lookup code) ↔
      ∀ x ∈ more, x.1 ∈ options.map Prod.fst := by
  simp only [lookup_append]
  constructor
  · intro h x hx
    rw [← lookup_isSome_iff, h, Option.isSome_or]
    simp [lookup_isSome_iff.2 (mem_map_of_mem hx)]
  · intro h code
    cases hcode : options.lookup code with
    | some val => rfl
    | none =>
      by_contra hne
      have hsome := lookup_isSome_iff.1 (Option.isSome_iff_ne_none.2 (Ne.symm hne))
      obtain ⟨x, hx, rfl⟩ := mem_map.1 hsome
      have := lookup_isSome_iff.2 (h x hx)
      rw [hcode] at this
      nomatch this

/-- Only the options behind the magic number are read. -/
theorem parseDhcpOptions_eq_ok {frames : ℕ} {f : DhcpFixed} {options : Bytes}
    {r : List (ℕ × Bytes)} (hframes : 1 ≤ frames)
    (hover : ∀ val, (segmentOptions options).lookup 52 = some val → val ∈ [[1], [2], [3]]) :
    parseDhcpOptions frames f options = .ok r ↔
      (Distinct (segmentOptions options) ∧ overload (segmentOptions options) ≠ 1) ∧
        segmentOptions options = r := by
  have hvalue {val : Bytes} (hval : (segmentOptions options).lookup 52 = some val) :
      val.length = 1 ∧ overload (segmentOptions options) = field val 0 1 := by
    have hmem := hover val hval
    simp only [mem_cons, not_mem_nil, or_false] at hmem
    unfold overload
    rw [hval]
    rcases hmem with rfl | rfl | rfl <;> exact ⟨rfl, rfl⟩
  have hplain (hdist : Distinct (segmentOptions options))
      (hne : overload (segmentOptions options) ≠ 1) :
      parseDhcpOptions frames f options = .ok (segmentOptions options) := by
    obtain ⟨d, rfl⟩ := exists_eq_succ_of_ne_zero (by omega : frames ≠ 0)
    have hfirst : parseOptionSegment options (options.length + 1) 0 [] =
        .ok (segmentOptions options) :=
      (parseSegment_eq_ok (show Distinct [] from nodup_nil)).2 ⟨hdist, rfl⟩
    unfold parseDhcpOptions call
    rw [hfirst, ok_bind]
    cases hval : (segmentOptions options).lookup 52 with
    | none => rfl
    | some val =>
      obtain ⟨hlen, heq⟩ := hvalue hval
      dsimp only
      rw [item_of_lt (by omega), ok_bind, if_pos (heq ▸ hne)]
      rfl
  constructor
  · intro h
    obtain ⟨-, hdist, hfine⟩ := (parseDhcpOptions_iff ..).1 ⟨r, h⟩
    have hne : overload (segmentOptions options) ≠ 1 := by
      cases hval : (segmentOptions options).lookup 52 with
      | none =>
        unfold overload
        rw [hval]
        decide
      | some val =>
        obtain ⟨hlen, heq⟩ := hvalue hval
        intro hone
        have := ((hfine val hval).2 (heq.symm.trans hone)).1
        omega
    exact ⟨⟨hdist, hne⟩, Except.ok.inj ((hplain hdist hne).symm.trans h)⟩
  · rintro ⟨⟨hdist, hne⟩, rfl⟩
    exact hplain hdist hne

/-- **Options are decoded**, each code with the value of its first occurrence, and the message is
printed as it was, exactly if no code occurs twice in the options field, the overload option is not
1 and names no field with a code that is not in the options field, and `file` holds what stands six
bytes before it.  What is decoded are the options of the options field. -/
theorem dhcp_decoded (env : Env) (frames : ℕ) (b rest : Bytes) (items : List (Option (ℕ × Bytes)))
    (hframes : 4 ≤ frames) (hlen : 240 ≤ b.length) (hhlen : field b 2 1 ≤ 16)
    (hmagic : slice b 236 240 = dhcpMagic) (hoptions : b.drop 240 = segmentBytes items ++ rest)
    (hfits : FitsSegment items)
    (hover : ∀ val, (items.filterMap id).lookup 52 = some val → val ∈ [[1], [2], [3]]) :
    ((∃ d, construct env frames .dhcp b = .ok (.obj true (.dhcp d) .none) ∧
      (∀ code, d.parsedOptions.lookup code =
        (items.filterMap id ++ overloaded b (items.filterMap id)).lookup code) ∧
      hdr (.dhcp d) = .ok b) ↔
      (Distinct (items.filterMap id) ∧ overload (items.filterMap id) ≠ 1) ∧
        (∀ x ∈ overloaded b (items.filterMap id), x.1 ∈ (items.filterMap id).map Prod.fst) ∧
        slice b 102 230 = slice b 108 236) ∧
    ∀ d, construct env frames .dhcp b = .ok (.obj true (.dhcp d) .none) →
      d.parsedOptions = items.filterMap id := by
  obtain ⟨frames, rfl⟩ : ∃ m, frames = m + 4 := ⟨frames - 4, by omega⟩
  have hseg : segmentOptions (b.drop 240) = items.filterMap id := by
    rw [hoptions]
    exact optionsOf_segmentBytes rest items _ hfits (by simp)
  rw [← hseg] at hover ⊢
  have hparse (d : Dhcp) : construct env (frames + 4) .dhcp b = .ok (.obj true (.dhcp d) .none) ↔
      (Distinct (segmentOptions (b.drop 240)) ∧ overload (segmentOptions (b.drop 240)) ≠ 1) ∧
        ⟨some (dhcpFields b (slice b 0 28)), some (b.drop 240), segmentOptions (b.drop 240)⟩ =
          d := by
    have hconstruct : construct env (frames + 4) .dhcp b = dhcpParse (frames + 2) b := rfl
    rw [hconstruct, dhcpParse_eq (by omega) (by omega) hmagic, bind_eq_ok]
    simp only [call_eq_ok, parseDhcpOptions_eq_ok (show 1 ≤ frames + 2 - 1 by omega) hover]
    constructor
    · rintro ⟨_, ⟨-, hgood, rfl⟩, hd⟩
      cases hd
      exact ⟨hgood, rfl⟩
    · rintro ⟨hgood, rfl⟩
      exact ⟨_, ⟨by omega, hgood, rfl⟩, rfl⟩
  simp only [hparse]
  constructor
  · constructor
    · rintro ⟨_, ⟨hgood, rfl⟩, hlookup, hhdr⟩
      exact ⟨hgood, lookup_append_iff.1 hlookup, (hdr_dhcp_iff hlen _).1 hhdr⟩
    · rintro ⟨hgood, hmore, hfile⟩
      exact ⟨_, ⟨hgood, rfl⟩, lookup_append_iff.2 hmore, (hdr_dhcp_iff hlen _).2 hfile⟩
  · rintro _ ⟨-, rfl⟩
    rfl

/-- A message with these fields. -/
def dhcpMessage (sname file options : Bytes) : Bytes :=
  [1, 1, 6, 0] ++ List.replicate 40 0 ++ padTo 64 sname ++ padTo 128 file ++ dhcpMagic ++ options

/-- A message with two options and an empty `sname`, which the overload option names. -/
theorem dhcp_decoded_discover :
    ∃ d, construct ⟨0, 0⟩ 1000 .dhcp (dhcpMessage [] [] [53, 1, 1, 0, 52, 1, 2, 255]) =
        .ok (.obj true (.dhcp d) .none) ∧
      d.parsedOptions = [(53, [1]), (52, [2])] ∧
      hdr (.dhcp d) = .ok (dhcpMessage [] [] [53, 1, 1, 0, 52, 1, 2, 255]) := by
  obtain ⟨hiff, hparsed⟩ := dhcp_decoded ⟨0, 0⟩ 1000
    (dhcpMessage [] [] [53, 1, 1, 0, 52, 1, 2, 255]) [] [some (53, [1]), none, some (52, [2])]
    (by decide) (by decide +kernel) (by decide +kernel) (by decide +kernel) (by decide +kernel)
    (by simp [FitsSegment]) (by decide)
  obtain ⟨d, hd, -, hhdr⟩ := hiff.2 ⟨by decide, by decide +kernel, by decide +kernel⟩
  exact ⟨d, hd, hparsed d hd, hhdr⟩

/-- `parsedOptions` of a message. -/
def parsedOptions (b : Bytes) : Except Exn (List (ℕ × Bytes)) :=
  (construct ⟨0, 0⟩ 1000 .dhcp b).map fun
    | .obj _ (.dhcp d) _ => d.parsedOptions
    | _ => []

/-- **Options are lost**: those in `file` and `sname`, and all where an exception is raised; and
`hdr` writes another `file`. -/
theorem dhcp_options_lost :
    parsedOptions (dhcpMessage [] [12, 1, 97, 255] [52, 1, 1, 255]) = .error .indexError ∧
    parsedOptions (dhcpMessage [12, 1, 97, 255] [] [52, 1, 2, 255]) = .ok [(52, [2])] ∧
    parsedOptions (dhcpMessage [] [] [53, 1, 1, 53, 1, 1, 255]) = .error .attributeError ∧
    (construct ⟨0, 0⟩ 1000 .dhcp (dhcpMessage [] [97] [255]) >>= tostring) ≠
      .ok (dhcpMessage [] [97] [255]) := by
  decide +kernel

end NoxClassic.Packet
