/-
# The array buffer as a byte deque

`Array_buffer` keeps its bytes somewhere in an array.  `pull` and `trim` give up bytes at
the front and at the end, `push` and `put` add bytes there and move everything to a new
array when there is no room.  What a client sees are the bytes from `data` on, and these
are those of a list: the room left over, the array and its address never show.
-/

import Mathlib.Algebra.Group.Nat.Defs
import NoxClassic.Lib.Buffer
import NoxClassic.Lib.Run

namespace NoxClassic

open List Lib

structure ArrayBuffer where
  base : ℕ
  /-- The array at `base`. -/
  array : List UInt8
  capacity : ℕ
  data : ℕ
  size : ℕ

namespace ArrayBuffer

/-- What `new uint8_t[capacity]` returns: an address, and bytes nobody has set. -/
structure New where
  base : ℕ
  byte : ℕ → UInt8

inductive Act where
  | pull (n : ℕ)
  | trim (n : ℕ)
  | push (n : ℕ) (new : New)
  | put (n : ℕ) (new : New)

/-- Both constructors: all of the array is data. -/
def init (base : ℕ) (array : List UInt8) : ArrayBuffer :=
  ⟨base, array, array.length, base, array.length⟩

section Operations

variable (b : ArrayBuffer) (n : ℕ) (new : New)

/-- The visible bytes. -/
def bytes : List UInt8 := (b.array.drop (b.data - b.base)).take b.size

def pull : ArrayBuffer := { b with data := b.data + n, size := b.size - n }

def trim : ArrayBuffer := { b with size := n }

def headroom : ℕ := b.data - b.base

def tailroom : ℕ := b.base + b.capacity - (b.data + b.size)

/-- The data is copied to offset `off` of a new array. -/
def moved (capacity off : ℕ) : ArrayBuffer :=
  ⟨new.base, store ((range capacity).map new.byte) off b.bytes, capacity, new.base + off, b.size⟩

/-- The capacity when `push` finds too little room. -/
def pushCapacity : ℕ := b.capacity + (n - b.headroom)

def push : ArrayBuffer :=
  if n ≤ b.headroom then { b with data := b.data - n, size := b.size + n }
  else { b.moved new (b.pushCapacity n) n with data := new.base, size := b.size + n }

def putCapacity : ℕ := b.capacity + max b.capacity (n - b.tailroom)

def put : ArrayBuffer :=
  if b.tailroom < n then { b.moved new (b.putCapacity n) b.headroom with size := b.size + n }
  else { b with size := b.size + n }

def act : Act → ArrayBuffer
  | .pull n => b.pull n
  | .trim n => b.trim n
  | .push n new => b.push n new
  | .put n new => b.put n new

/-- No assertion fails, and no capacity overflows `size_t`. -/
def admits : Act → Bool
  | .pull n | .trim n => n ≤ b.size
  | .push n _ => n ≤ b.headroom || b.pushCapacity n < 2 ^ 64
  | .put n _ => n ≤ b.tailroom || b.putCapacity n < 2 ^ 64

def step (a : Act) : Option ArrayBuffer := if b.admits a then some (b.act a) else none

/-- The data lies in the array. -/
structure InArray : Prop where
  array : b.array.length = b.capacity
  low : b.base ≤ b.data
  high : b.data + b.size ≤ b.base + b.capacity

end Operations

/-- What an operation does to a list of bytes. -/
def Deque : Act → List UInt8 → List UInt8 → Prop
  | .pull n, l, l' => l' = l.drop n
  | .trim n, l, l' => l' = l.take n
  | .push n _, l, l' => ∃ u : List UInt8, u.length = n ∧ l' = u ++ l
  | .put n _, l, l' => ∃ u : List UInt8, u.length = n ∧ l' = l ++ u

def DequeRun : List Act → List UInt8 → List UInt8 → Prop
  | [], l, l' => l' = l
  | a :: as, l, l' => ∃ m, Deque a l m ∧ DequeRun as m l'

variable {b b' : ArrayBuffer} {a : Act} {n : ℕ}

namespace InArray

section

variable (h : b.InArray)
include h

theorem length_bytes : b.bytes.length = b.size := by
  obtain ⟨harray, hlow, hhigh⟩ := h
  simp only [bytes, length_take, length_drop]
  omega

/-- Bytes in front of the data become data. -/
theorem prepend (hn : b.base + n ≤ b.data) :
    { b with data := b.data - n, size := b.size + n : ArrayBuffer }.InArray ∧
    ∃ u : List UInt8, u.length = n ∧
      { b with data := b.data - n, size := b.size + n : ArrayBuffer }.bytes = u ++ b.bytes := by
  obtain ⟨harray, hlow, hhigh⟩ := h
  refine ⟨⟨harray, by dsimp only; omega, by dsimp only; omega⟩,
    (b.array.drop (b.data - n - b.base)).take n, ?_, ?_⟩
  · simp only [length_take, length_drop]
    omega
  · have hdata : b.data - n - b.base + n = b.data - b.base := by omega
    simp only [bytes]
    rw [Nat.add_comm b.size, take_add, drop_drop, hdata]

/-- Bytes behind the data become data. -/
theorem append (hn : b.data + b.size + n ≤ b.base + b.capacity) :
    { b with size := b.size + n : ArrayBuffer }.InArray ∧
    ∃ u : List UInt8, u.length = n ∧
      { b with size := b.size + n : ArrayBuffer }.bytes = b.bytes ++ u := by
  obtain ⟨harray, hlow, hhigh⟩ := h
  refine ⟨⟨harray, hlow, by dsimp only; omega⟩,
    ((b.array.drop (b.data - b.base)).drop b.size).take n, ?_, take_add⟩
  simp only [length_take, length_drop]
  omega

/-- The new array has the same data. -/
theorem moved (new : New) {capacity off : ℕ} (hfit : off + b.size ≤ capacity) :
    (b.moved new capacity off).InArray ∧ (b.moved new capacity off).bytes = b.bytes := by
  have hsize := h.length_bytes
  have hlen : ((range capacity).map new.byte).length = capacity := by simp
  refine ⟨⟨(length_store (by omega)).trans hlen, Nat.le_add_right _ _, ?_⟩, ?_⟩
  · simp only [ArrayBuffer.moved]
    omega
  · have hback := take_drop_store (b := b.bytes) (hlen ▸ (by omega : off ≤ capacity))
    rw [hsize] at hback
    simp only [ArrayBuffer.moved, bytes, Nat.add_sub_cancel_left]
    exact hback

/-- **One operation** keeps the data in the array, and does to the bytes what it should. -/
theorem act (ha : b.admits a = true) :
    (b.act a).InArray ∧ Deque a b.bytes (b.act a).bytes := by
  obtain ⟨harray, hlow, hhigh⟩ := id h
  cases a with
  | pull n =>
    have hn := of_decide_eq_true ha
    have hdata : b.data + n - b.base = b.data - b.base + n := by omega
    refine ⟨⟨harray, Nat.le_add_right_of_le hlow, by dsimp only [ArrayBuffer.act, pull]; omega⟩, ?_⟩
    simp only [Deque, ArrayBuffer.act, pull, bytes]
    rw [hdata, drop_take, drop_drop]
  | trim n =>
    have hn := of_decide_eq_true ha
    refine ⟨⟨harray, hlow, by dsimp only [ArrayBuffer.act, trim]; omega⟩, ?_⟩
    simp only [Deque, ArrayBuffer.act, trim, bytes]
    rw [take_take, min_eq_left hn]
  | push n new =>
    by_cases hroom : n ≤ b.headroom
    · rw [show b.act (.push n new) = _ from if_pos hroom]
      unfold headroom at hroom
      exact h.prepend (by omega)
    · have hfit : n + b.size ≤ b.pushCapacity n := by
        unfold pushCapacity headroom at *
        omega
      obtain ⟨hmoved, hbytes⟩ := h.moved new hfit
      have hadd := hmoved.prepend (n := n) le_rfl
      rw [hbytes] at hadd
      simp only [ArrayBuffer.moved, Nat.add_sub_cancel] at hadd
      rw [show b.act (.push n new) = _ from if_neg hroom]
      exact hadd
  | put n new =>
    by_cases hroom : b.tailroom < n
    · have hfit : b.headroom + b.size + n ≤ b.putCapacity n := by
        unfold putCapacity headroom tailroom at *
        omega
      obtain ⟨hmoved, hbytes⟩ := h.moved new (Nat.le_of_add_right_le hfit)
      have hadd := hmoved.append (n := n) (by simp only [ArrayBuffer.moved]; omega)
      rw [hbytes] at hadd
      rw [show b.act (.put n new) = _ from if_pos hroom]
      exact hadd
    · rw [show b.act (.put n new) = _ from if_neg hroom]
      unfold tailroom at hroom
      exact h.append (by omega)

end

theorem run (h : b.InArray) {as : List Act} (hrun : Lib.run step b as = some b') :
    b'.InArray ∧ DequeRun as b.bytes b'.bytes := by
  induction as generalizing b with
  | nil =>
    cases hrun
    exact ⟨h, rfl⟩
  | cons a as ih =>
    obtain ⟨c, hs, hrest⟩ := run_cons_eq_some.1 hrun
    obtain ⟨ha, rfl⟩ := of_guard hs
    obtain ⟨hc, hdeque⟩ := h.act ha
    obtain ⟨hb', hrun'⟩ := ih hc hrest
    exact ⟨hb', _, hdeque, hrun'⟩

end InArray

/-- **A byte deque.**  After any operations on a new buffer the data lies in the array, and the
bytes are those of a list on which the same operations were done. -/
theorem run_deque (base : ℕ) (array : List UInt8) (as : List Act)
    (hrun : run step (init base array) as = some b) : b.InArray ∧ DequeRun as array b.bytes := by
  have hinit : (init base array).bytes = array := by simp [init, bytes]
  exact hinit ▸ InArray.run ⟨rfl, le_rfl, le_rfl⟩ hrun

/-- Bytes are added at both ends of a buffer that gave up one at each. -/
theorem run_deque_both_ends :
    let new : New := ⟨64, fun _ => 7⟩
    let as : List Act := [.pull 1, .trim 1, .push 2 new, .put 3 new]
    ∃ b, run step (init 8 [1, 2, 3]) as = some b ∧ b.bytes = [7, 7, 2, 7, 7, 7] ∧
      b.InArray ∧ DequeRun as [1, 2, 3] b.bytes :=
  ⟨_, rfl, by decide, run_deque 8 [1, 2, 3] _ rfl⟩

end ArrayBuffer

end NoxClassic
