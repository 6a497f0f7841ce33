/-
# Reading a received message

The decoders of this development read fields of a message through pointers into
it.  A pointer is here the list of the bytes from the place it points to up to
the end of the buffer, so `p.drop n` is `p + n`, and a field at an offset is
outside the buffer when the list is too short.  A read that would leave the
buffer, a null pointer that is followed, a failed assertion, an allocation of
a size that has wrapped and a loop that goes on for more rounds than it was
given end the computation with a `Fault`.

Fields are numbers: `be` is the value of bytes in network order, and `le` the
value they have on the host, which is taken to be little-endian.

`Yields` is the rule of postconditions for such computations.  `Records` says
that bytes are a list of records that announce their own lengths.
-/

import Mathlib.Data.List.Induction
import Mathlib.Data.List.TakeWhile
import Mathlib.Algebra.Group.Nat.Defs

namespace NoxClassic.Lib

open List

/-- Why a computation on a message does not return. -/
inductive Fault where
  /-- A byte outside the buffer was read or written. -/
  | outside
  /-- A null pointer was followed. -/
  | null
  | assertion
  /-- `new[]` of a size that has wrapped throws. -/
  | allocation
  /-- The loop goes on after the rounds it was given. -/
  | spin
  deriving DecidableEq, Repr

/-- The value of bytes in network order. -/
def be (l : List UInt8) : ℕ := l.foldl (fun n x => n * 256 + x.toNat) 0

/-- The value of bytes on the host. -/
def le (l : List UInt8) : ℕ := be l.reverse

/-- The `k` bytes of a number on the host. -/
def leBytes : ℕ → ℕ → List UInt8
  | 0, _ => []
  | k + 1, n => UInt8.ofNat n :: leBytes k (n / 256)

/-- `htonl` and `ntohl`, of a number of 32 bits. -/
def htonl (n : ℕ) : ℕ := be (leBytes 4 n)

/-- `htonll` and `ntohll`, of a number of 64 bits. -/
def htonll (n : ℕ) : ℕ := be (leBytes 8 n)

/-- A difference in `size_t`. -/
def subSize (a b : ℕ) : ℕ := (a + 2 ^ 64 - b) % 2 ^ 64

theorem subSize_of_le {a b : ℕ} (h : b ≤ a) (ha : a < 2 ^ 64) : subSize a b = a - b := by
  unfold subSize
  rw [show a + 2 ^ 64 - b = a - b + 2 ^ 64 by omega, Nat.add_mod_right, Nat.mod_eq_of_lt (by omega)]

/-- The value of the `n` bytes at an offset, as far as there are any. -/
def field (p : List UInt8) (off n : ℕ) : ℕ := be ((p.drop off).take n)

theorem be_lt (l : List UInt8) : be l < 256 ^ l.length := by
  induction l using List.reverseRecOn with
  | nil => exact Nat.one_pos
  | append_singleton l x ih =>
    unfold be at ih ⊢
    rw [foldl_append, length_append, length_singleton, Nat.pow_succ]
    have := x.toNat_lt
    show _ * 256 + x.toNat < _
    omega

theorem field_lt (p : List UInt8) (off n : ℕ) : field p off n < 256 ^ n :=
  Nat.lt_of_lt_of_le (be_lt _) (Nat.pow_le_pow_right (by decide) (length_take_le _ _))

theorem field_append {p q : List UInt8} {off n : ℕ} (h : off + n ≤ p.length) :
    field (p ++ q) off n = field p off n := by
  unfold field
  rw [drop_append_of_le_length (by omega), take_append_of_le_length (by rw [length_drop]; omega)]

theorem field_drop (p : List UInt8) (k off n : ℕ) :
    field (p.drop k) off n = field p (k + off) n := by
  unfold field
  rw [drop_drop]

section Read

variable (p : List UInt8)

/-- The `n` bytes at an offset. -/
def bytes (off n : ℕ) : Except Fault (List UInt8) :=
  if off + n ≤ p.length then .ok ((p.drop off).take n) else .error .outside

/-- An unsigned number of 8 bits. -/
def u8 (off : ℕ) : Except Fault ℕ := (bytes p off 1).map be

/-- An unsigned number of 16 bits in network order. -/
def u16 (off : ℕ) : Except Fault ℕ := (bytes p off 2).map be

/-- An unsigned number of 32 bits in network order. -/
def u32 (off : ℕ) : Except Fault ℕ := (bytes p off 4).map be

/-- An unsigned number of 64 bits in network order. -/
def u64 (off : ℕ) : Except Fault ℕ := (bytes p off 8).map be

/-- The string at an offset, up to the first zero. -/
def cstr (off : ℕ) : Except Fault (List UInt8) :=
  let s := (p.drop off).takeWhile (· ≠ 0)
  if off + s.length < p.length then .ok s else .error .outside

/-- The buffer with one byte written. -/
def setByte (off : ℕ) (x : UInt8) : Except Fault (List UInt8) :=
  if off < p.length then .ok (p.set off x) else .error .outside

/-- `Buffer::try_at` of a type of `n` bytes. -/
def tryAt (n : ℕ) : Option (List UInt8) := if n ≤ p.length then some p else none

/-- `Buffer::try_pull`: the pointer to the bytes that were dropped, and the rest. -/
def tryPull (n : ℕ) : Option (List UInt8 × List UInt8) :=
  if n ≤ p.length then some (p, p.drop n) else none

/-- `Buffer::pull`: the rest of the buffer. -/
def pull (n : ℕ) : Except Fault (List UInt8) :=
  if n ≤ p.length then .ok (p.drop n) else .error .assertion

variable {p} {off n : ℕ}

@[simp] theorem ok_bind {α β : Type} (a : α) (f : α → Except Fault β) :
    (Except.ok a >>= f) = f a := rfl

@[simp] theorem error_bind {α β : Type} (e : Fault) (f : α → Except Fault β) :
    (Except.error e >>= f) = .error e := rfl

theorem bytes_of_le (h : off + n ≤ p.length) : bytes p off n = .ok ((p.drop off).take n) :=
  if_pos h

theorem u8_of_le (h : off + 1 ≤ p.length) : u8 p off = .ok (field p off 1) := by
  unfold u8
  rw [bytes_of_le h]
  rfl

theorem u16_of_le (h : off + 2 ≤ p.length) : u16 p off = .ok (field p off 2) := by
  unfold u16
  rw [bytes_of_le h]
  rfl

theorem u32_of_le (h : off + 4 ≤ p.length) : u32 p off = .ok (field p off 4) := by
  unfold u32
  rw [bytes_of_le h]
  rfl

theorem u64_of_le (h : off + 8 ≤ p.length) : u64 p off = .ok (field p off 8) := by
  unfold u64
  rw [bytes_of_le h]
  rfl

theorem pull_of_le (h : n ≤ p.length) : pull p n = .ok (p.drop n) := if_pos h

theorem setByte_of_lt {x : UInt8} (h : off < p.length) : setByte p off x = .ok (p.set off x) :=
  if_pos h

end Read

/-! ### Postconditions -/

/-- The computation returns, with a result that meets `Q`. -/
def Yields {α : Type} (x : Except Fault α) (Q : α → Prop) : Prop := ∃ a, x = .ok a ∧ Q a

/-- The computation returns. -/
abbrev Safe {α : Type} (x : Except Fault α) : Prop := Yields x fun _ => True

section Yields

variable {α β : Type} {x : Except Fault α} {f : α → Except Fault β} {Q Q' : α → Prop}
  {S : β → Prop}

theorem Yields.ok {a : α} (h : Q a) : Yields (.ok a) Q := ⟨a, rfl, h⟩

theorem Yields.safe {a : α} : Safe (.ok a) := .ok True.intro

/-- **The rule for a sequence.** -/
theorem Yields.bind (h : Yields x Q) (hf : ∀ a, Q a → Yields (f a) S) : Yields (x >>= f) S := by
  obtain ⟨a, rfl, ha⟩ := h
  exact hf a ha

/-- **The rule for a conditional.** -/
theorem Yields.ite {p : Prop} [Decidable p] {y : Except Fault α} (hx : p → Yields x Q)
    (hy : ¬ p → Yields y Q) : Yields (if p then x else y) Q := by
  split_ifs with h
  · exact hx h
  · exact hy h

/-- **The rule of consequence.** -/
theorem Yields.mono (h : Yields x Q) (hQ : ∀ a, Q a → Q' a) : Yields x Q' := by
  obtain ⟨a, hx, ha⟩ := h
  exact ⟨a, hx, hQ a ha⟩

@[simp] theorem yields_ok_iff {a : α} : Yields (.ok a) Q ↔ Q a := by
  constructor
  · rintro ⟨_, ⟨⟩, h⟩
    exact h
  · exact .ok

@[simp] theorem not_yields_error {e : Fault} : ¬ Yields (.error e) Q := nofun

/-- What a sequence needs. -/
theorem yields_bind_iff : Yields (x >>= f) S ↔ Yields x fun a => Yields (f a) S := by
  cases x with
  | ok a => rw [ok_bind, yields_ok_iff]
  | error e => exact ⟨nofun, nofun⟩

theorem yields_map_iff {g : α → β} : Yields (x.map g) S ↔ Yields x fun a => S (g a) := by
  cases x with
  | ok a =>
    rw [yields_ok_iff]
    exact yields_ok_iff
  | error e => exact ⟨nofun, nofun⟩

/-- What a conditional needs. -/
theorem yields_ite_iff {p D : Prop} [Decidable p] {y : Except Fault α}
    (hx : p → (Yields x Q ↔ D)) (hy : ¬ p → (Yields y Q ↔ D)) :
    Yields (if p then x else y) Q ↔ D := by
  split_ifs with h
  · exact hx h
  · exact hy h

/-- A postcondition that does not mention the result. -/
theorem yields_const_iff {P : Prop} : Yields x (fun _ => P) ↔ Safe x ∧ P :=
  ⟨fun ⟨a, hx, h⟩ => ⟨⟨a, hx, trivial⟩, h⟩, fun ⟨⟨a, hx, _⟩, h⟩ => ⟨a, hx, h⟩⟩

end Yields

section Reads

variable {p : List UInt8} {off n : ℕ}

theorem yields_bytes_iff {Q : List UInt8 → Prop} :
    Yields (bytes p off n) Q ↔ off + n ≤ p.length ∧ Q ((p.drop off).take n) := by
  unfold bytes
  split_ifs with h
  · rw [yields_ok_iff, and_iff_right h]
  · exact iff_of_false not_yields_error fun hle => h hle.1

variable {Q : ℕ → Prop}

theorem yields_u8_iff : Yields (u8 p off) Q ↔ off + 1 ≤ p.length ∧ Q (field p off 1) :=
  yields_map_iff.trans yields_bytes_iff

theorem yields_u16_iff : Yields (u16 p off) Q ↔ off + 2 ≤ p.length ∧ Q (field p off 2) :=
  yields_map_iff.trans yields_bytes_iff

theorem yields_u32_iff : Yields (u32 p off) Q ↔ off + 4 ≤ p.length ∧ Q (field p off 4) :=
  yields_map_iff.trans yields_bytes_iff

theorem yields_u64_iff : Yields (u64 p off) Q ↔ off + 8 ≤ p.length ∧ Q (field p off 8) :=
  yields_map_iff.trans yields_bytes_iff

/-- A string is read within the buffer when a zero follows. -/
theorem yields_cstr_iff {Q : List UInt8 → Prop} :
    Yields (cstr p off) Q ↔ 0 ∈ p.drop off ∧ Q ((p.drop off).takeWhile (· ≠ 0)) := by
  have hle := (takeWhile_sublist (· ≠ (0 : UInt8)) (l := p.drop off)).length_le
  have hnul : 0 ∈ p.drop off ↔ off + ((p.drop off).takeWhile (· ≠ 0)).length < p.length := by
    rw [length_drop] at hle
    constructor
    · intro hmem
      by_contra hge
      have heq := (takeWhile_sublist (· ≠ (0 : UInt8))).eq_of_length
        (show ((p.drop off).takeWhile (· ≠ 0)).length = (p.drop off).length by
          have := length_pos_of_mem hmem
          rw [length_drop] at this ⊢
          omega)
      exact absurd (takeWhile_eq_self_iff.1 heq 0 hmem) (by decide)
    · intro hlt
      by_contra hmem
      have hall : (p.drop off).takeWhile (· ≠ 0) = p.drop off :=
        takeWhile_eq_self_iff.2 fun x hx => decide_eq_true fun h => hmem (h ▸ hx)
      rw [hall, length_drop] at hlt
      omega
  unfold cstr
  dsimp only
  split_ifs with h
  · rw [yields_ok_iff, and_iff_right (hnul.2 h)]
  · exact iff_of_false not_yields_error fun hmem => h (hnul.1 hmem.1)

end Reads

/-! ### Arrays and records -/

/-- A loop over an array of `n` elements of `size` bytes. -/
def array {α : Type} (read : List UInt8 → Except Fault α) (size : ℕ) :
    ℕ → List UInt8 → Except Fault (List α)
  | 0, _ => .ok []
  | n + 1, p => do
    let x ← read p
    let xs ← array read size n (p.drop size)
    return x :: xs

/-- An array is read when each element is. -/
theorem safe_array_iff {α : Type} {read : List UInt8 → Except Fault α} {size : ℕ} :
    ∀ {n : ℕ} {p : List UInt8},
      Safe (array read size n p) ↔ ∀ i < n, Safe (read (p.drop (i * size))) := by
  intro n
  induction n with
  | zero => exact ⟨fun _ _ hi => absurd hi (Nat.not_lt_zero _), fun _ => .safe⟩
  | succ n ih =>
    intro p
    have hstep : Safe (array read size (n + 1) p) ↔
        Safe (read p) ∧ Safe (array read size n (p.drop size)) := by
      refine yields_bind_iff.trans (Iff.trans ?_ yields_const_iff)
      simp only [yields_bind_iff, yields_ok_iff, pure, Except.pure]
    simp only [hstep, ih, Nat.forall_lt_succ_left', drop_drop, Nat.zero_mul, drop_zero,
      Nat.succ_mul, Nat.add_comm]

/-- The bytes are records of at least `fixed` bytes, each with its length in the two bytes at
`lenOff`, and each meets `P`. -/
inductive Records (fixed lenOff : ℕ) (P : List UInt8 → Prop) : List UInt8 → Prop where
  | nil : Records fixed lenOff P []
  | cons {r rest : List UInt8} : fixed ≤ r.length → field r lenOff 2 = r.length → P r →
      Records fixed lenOff P rest → Records fixed lenOff P (r ++ rest)

end NoxClassic.Lib
