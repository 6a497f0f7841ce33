/-
# Sweeps around a ring of keys

A scan of an ordered set that others change meanwhile, kept as two keys only: the
one it began with and the one it has come to.  It goes up from the first key, may
then wrap around to keys below it, and goes up again until it would pass the first
one.  `Swept` is what such a scan knows of the keys it has met (`seen`) and of
those that have been in the set all the time (`kept`), and there is one lemma for
each way it can move.
-/

import Mathlib.Order.Lattice
import Mathlib.Data.List.Nodup

namespace NoxClassic.Lib

open List

variable {κ : Type*} [LinearOrder κ]

/-- A sweep that began at `first` and has come to `current`.  On its way up it has met every key
kept up to there; once below the first key, every key kept. -/
structure Swept (first current : κ) (seen : List κ) (kept : κ → Prop) : Prop where
  nodup : seen.Nodup
  above : first ≤ current →
    (∀ k ∈ seen, first ≤ k ∧ k ≤ current) ∧ ∀ k, kept k → k ≤ current → k ∈ seen
  below : current < first →
    (∀ k ∈ seen, k < first → k ≤ current) ∧ ∀ k, kept k → k ∈ seen

variable {first current k : κ} {seen : List κ} {kept : κ → Prop}

/-- The sweep begins at the least key. -/
theorem Swept.start (h : ∀ k, kept k → first ≤ k) : Swept first first [first] kept where
  nodup := nodup_singleton first
  above _ := by
    refine ⟨fun k hk => ?_, fun k hk hle => ?_⟩
    · obtain rfl := mem_singleton.1 hk
      exact ⟨le_rfl, le_rfl⟩
    · rw [le_antisymm hle (h k hk)]
      exact mem_singleton_self first
  below h := absurd h (lt_irrefl first)

section

variable (h : Swept first current seen kept)
include h

/-- Fewer keys are kept. -/
theorem Swept.mono {kept' : κ → Prop}
    (hk : ∀ k, kept' k → kept k) : Swept first current seen kept' where
  nodup := h.nodup
  above hle := ⟨(h.above hle).1, fun k hk' => (h.above hle).2 k (hk k hk')⟩
  below hlt := ⟨(h.below hlt).1, fun k hk' => (h.below hlt).2 k (hk k hk')⟩

/-- On the way up, to the next key. -/
theorem Swept.next_above (hle : first ≤ current)
    (hlt : current < k) (hleast : ∀ l, kept l → current < l → k ≤ l) :
    Swept first k (k :: seen) kept where
  nodup := by
    refine nodup_cons.2 ⟨fun hk => ?_, h.nodup⟩
    exact absurd ((h.above hle).1 k hk).2 (not_le.2 hlt)
  above _ := by
    refine ⟨fun l hl => ?_, fun l hl hle' => ?_⟩
    · rcases mem_cons.1 hl with rfl | hl
      · exact ⟨hle.trans hlt.le, le_rfl⟩
      · obtain ⟨h1, h2⟩ := (h.above hle).1 l hl
        exact ⟨h1, h2.trans hlt.le⟩
    · rcases le_or_gt l current with hc | hc
      · exact mem_cons_of_mem k ((h.above hle).2 l hl hc)
      · rw [le_antisymm hle' (hleast l hl hc)]
        exact mem_cons_self
  below hk := absurd (hle.trans hlt.le) (not_le.2 hk)

/-- Around to a key below the first one, when no key above is kept. -/
theorem Swept.wrap (hle : first ≤ current)
    (hlt : k < first) (hlast : ∀ l, kept l → l ≤ current) : Swept first k (k :: seen) kept where
  nodup := by
    refine nodup_cons.2 ⟨fun hk => ?_, h.nodup⟩
    exact absurd ((h.above hle).1 k hk).1 (not_le.2 hlt)
  above hk := absurd hk (not_le.2 hlt)
  below _ := by
    refine ⟨fun l hl hf => ?_, fun l hl => ?_⟩
    · rcases mem_cons.1 hl with rfl | hl
      · exact le_rfl
      · exact absurd ((h.above hle).1 l hl).1 (not_le.2 hf)
    · exact mem_cons_of_mem k ((h.above hle).2 l hl (hlast l hl))

/-- Below the first key, to the next one below it. -/
theorem Swept.next_below (hc : current < first)
    (hlt : current < k) (hk : k < first) : Swept first k (k :: seen) kept where
  nodup := by
    refine nodup_cons.2 ⟨fun hmem => ?_, h.nodup⟩
    exact absurd ((h.below hc).1 k hmem hk) (not_le.2 hlt)
  above hle := absurd hle (not_le.2 hk)
  below _ := by
    refine ⟨fun l hl hf => ?_, fun l hl => mem_cons_of_mem k ((h.below hc).2 l hl)⟩
    rcases mem_cons.1 hl with rfl | hl
    · exact le_rfl
    · exact ((h.below hc).1 l hl hf).trans hlt.le

/-- **A sweep that is below its first key, or has nothing kept above it, has met all that was
kept.** -/
theorem Swept.complete
    (hend : current < first ∨ ∀ l, kept l → l ≤ current) : ∀ k, kept k → k ∈ seen := by
  intro k hk
  rcases lt_or_ge current first with hc | hc
  · exact (h.below hc).2 k hk
  · rcases hend with hc' | hend
    · exact absurd hc (not_le.2 hc')
    · exact (h.above hc).2 k hk (hend k hk)

end

end NoxClassic.Lib
