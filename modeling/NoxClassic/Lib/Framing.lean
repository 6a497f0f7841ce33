/-
# Framing a stream by the lengths its frames announce

A receiver of length-prefixed frames cuts a stream into frames and a rest.  A
`Format` says how many elements a header has and which length it announces; a
`Segmentation` of a stream is a list of frames and a rest that no further frame
can be cut from, because it is too short or because its header announces less
than a header.  Every stream has exactly one (`exists_segmentation`,
`Segmentation.unique`), so a receiver that consumes the stream piece by piece is
right when the frames it has returned, followed by what it holds and by what it
has still to read, make up the stream (`Segmentation.of_frames`).
-/

import Mathlib.Data.List.Basic

namespace NoxClassic.Lib

open List

variable {α : Type*}

/-- A format of length-prefixed frames: the size of the header, and the length
that a header announces for the whole frame. -/
structure Format (α : Type*) where
  header : ℕ
  size : List α → ℕ
  header_pos : 0 < header
  size_append : ∀ s t : List α, header ≤ s.length → size (s ++ t) = size s

namespace Format

variable (F : Format α)

/-- A whole frame: a header that announces the length of the frame. -/
def IsFrame (m : List α) : Prop :=
  F.header ≤ m.length ∧ F.size m = m.length

/-- A part of a frame that may still become one: part of a header, or a header
and fewer elements than it announces. -/
def IsPartial (p : List α) : Prop :=
  p.length < F.header ∨ F.header ≤ F.size p ∧ p.length < F.size p

/-- What no frame can be cut from: part of a frame, or a header that announces
less than itself. -/
def IsStuck (r : List α) : Prop :=
  r.length < F.header ∨ F.size r < F.header ∨ r.length < F.size r

instance (m : List α) : Decidable (F.IsFrame m) := inferInstanceAs (Decidable (_ ∧ _))

instance (m : List α) : Decidable (F.IsPartial m) := inferInstanceAs (Decidable (_ ∨ _))

instance (m : List α) : Decidable (F.IsStuck m) := inferInstanceAs (Decidable (_ ∨ _))

variable {F}

theorem IsPartial.isStuck {p : List α} (h : F.IsPartial p) : F.IsStuck p := by
  rcases h with h | ⟨-, h⟩
  · exact .inl h
  · exact .inr (.inr h)

theorem isPartial_nil : F.IsPartial [] :=
  .inl F.header_pos

variable {m s r : List α} {ms ms' : List (List α)}

theorem IsFrame.size_append (h : F.IsFrame m) (s : List α) : F.size (m ++ s) = m.length :=
  (F.size_append m s h.1).trans h.2

/-- A stream that starts with a frame is not stuck. -/
theorem IsFrame.not_isStuck (h : F.IsFrame m) (s : List α) : ¬ F.IsStuck (m ++ s) := by
  have hlen : (m ++ s).length = m.length + s.length := length_append
  have hsize := h.size_append s
  have hhead := h.1
  rintro (hr | hr | hr) <;> omega

/-- A stream starts with at most one frame. -/
theorem IsFrame.unique {m' s' : List α} (hm : F.IsFrame m) (hm' : F.IsFrame m')
    (h : m ++ s = m' ++ s') : m = m' ∧ s = s' := by
  have hlen : m.length = m'.length := by
    rw [← hm.size_append s, h, hm'.size_append s']
  exact append_inj h hlen

/-- Where a stream is not stuck it starts with a frame. -/
theorem exists_frame (h : ¬ F.IsStuck s) : ∃ m t, s = m ++ t ∧ F.IsFrame m := by
  have hsize : F.header ≤ F.size s := Nat.le_of_not_lt fun hlt => h (.inr (.inl hlt))
  have hlen : F.size s ≤ s.length := Nat.le_of_not_lt fun hlt => h (.inr (.inr hlt))
  have htake : (s.take (F.size s)).length = F.size s := length_take_of_le hlen
  refine ⟨s.take (F.size s), s.drop (F.size s), (take_append_drop _ _).symm, ?_, ?_⟩
  · rw [htake]
    exact hsize
  · have h := F.size_append (s.take (F.size s)) (s.drop (F.size s)) (by rwa [htake])
    rw [take_append_drop] at h
    rw [← h, htake]

/-- **A segmentation** of the stream `s`: frames, and a rest that is stuck. -/
structure Segmentation (F : Format α) (s : List α) (ms : List (List α)) (r : List α) : Prop where
  stream : s = ms.flatten ++ r
  frames : ∀ m ∈ ms, F.IsFrame m
  rest : F.IsStuck r

theorem Segmentation.nil (h : F.IsStuck r) : F.Segmentation r [] r :=
  ⟨rfl, fun _ hm => absurd hm not_mem_nil, h⟩

/-- Frames before a segmented stream lead its frames. -/
theorem Segmentation.of_frames (hms : ∀ m ∈ ms, F.IsFrame m) (h : F.Segmentation s ms' r) :
    F.Segmentation (ms.flatten ++ s) (ms ++ ms') r := by
  refine ⟨?_, fun m hm => ?_, h.rest⟩
  · rw [h.stream, flatten_append, append_assoc]
  · rcases mem_append.1 hm with hm | hm
    · exact hms m hm
    · exact h.frames m hm

/-- **A stream has one segmentation at most.** -/
theorem Segmentation.unique {r' : List α}
    (h : F.Segmentation s ms r) (h' : F.Segmentation s ms' r') : ms = ms' ∧ r = r' := by
  induction ms generalizing s ms' with
  | nil =>
    obtain rfl : s = r := h.stream
    cases ms' with
    | nil => exact ⟨rfl, h'.stream⟩
    | cons m ms' =>
      have hs := h'.stream
      rw [flatten_cons, append_assoc] at hs
      exact absurd (hs ▸ h.rest) ((h'.frames m mem_cons_self).not_isStuck _)
  | cons m ms ih =>
    have hs := h.stream
    rw [flatten_cons, append_assoc] at hs
    have hm := h.frames m mem_cons_self
    have hstream := h'.stream
    rw [hs] at hstream
    cases ms' with
    | nil =>
      obtain rfl : m ++ (ms.flatten ++ r) = r' := hstream
      exact absurd h'.rest (hm.not_isStuck _)
    | cons m' ms' =>
      rw [flatten_cons, append_assoc] at hstream
      -- both start with the one frame that the stream starts with
      obtain ⟨rfl, htail⟩ := hm.unique (h'.frames m' mem_cons_self) hstream
      have hih := ih ⟨rfl, fun k hk => h.frames k (mem_cons_of_mem _ hk), h.rest⟩
        ⟨htail, fun k hk => h'.frames k (mem_cons_of_mem _ hk), h'.rest⟩
      exact ⟨congrArg _ hih.1, hih.2⟩

/-- **Every stream has a segmentation.** -/
theorem exists_segmentation (F : Format α) (s : List α) : ∃ ms r, F.Segmentation s ms r := by
  -- on the length: a frame has a header, so what follows it is shorter
  induction hn : s.length using Nat.strongRecOn generalizing s with
  | _ n ih =>
    by_cases hs : F.IsStuck s
    · exact ⟨[], s, Segmentation.nil hs⟩
    obtain ⟨m, t, rfl, hm⟩ := exists_frame hs
    have hlen : t.length < n := by
      have := Nat.lt_of_lt_of_le F.header_pos hm.1
      rw [length_append] at hn
      omega
    obtain ⟨ms, r, h⟩ := ih t.length hlen t rfl
    refine ⟨m :: ms, r, ?_⟩
    have hm : ∀ k ∈ [m], F.IsFrame k := by simpa using hm
    simpa using Segmentation.of_frames hm h

/-- The frames before a point of the stream lead the frames of the stream. -/
theorem Segmentation.isPrefix {t : List α} (h : F.Segmentation s ms r) (hs : s = ms'.flatten ++ t)
    (hms' : ∀ m ∈ ms', F.IsFrame m) : ms' <+: ms := by
  obtain ⟨ns, r', hns⟩ := exists_segmentation F t
  have h' := Segmentation.of_frames hms' hns
  rw [← hs] at h'
  exact ⟨ns, (h'.unique h).1⟩

end Format

end NoxClassic.Lib
