/-
# Ordered maps

`std::map` as a list of key-value pairs in increasing order of the keys.  The
order is a field of the structure, so every map there is can be searched from the
front: `first` finds the least key with a property, and `lower_bound` and
`upper_bound` are two instances of it.  Proofs see a map through `find?`.
-/

import Mathlib.Order.Lattice

namespace NoxClassic.Lib

open List Option

/-- A map from `κ` to `ν` in order of its keys. -/
structure OrdMap (κ ν : Type*) [LinearOrder κ] where
  entries : List (κ × ν)
  sorted : entries.Pairwise fun a b => a.1 < b.1

namespace OrdMap

variable {κ ν : Type*} [LinearOrder κ]

/-- The value at `k` in a list of pairs. -/
def findIn (k : κ) : List (κ × ν) → Option ν
  | [] => none
  | (l, v) :: es => if l = k then some v else findIn k es

/-- `map::find`. -/
def find? (m : OrdMap κ ν) (k : κ) : Option ν := findIn k m.entries

/-- The map without entries. -/
def empty : OrdMap κ ν := ⟨[], List.Pairwise.nil⟩

/-- `map::empty`. -/
def isEmpty (m : OrdMap κ ν) : Bool := m.entries.isEmpty

/-- The pairs with `k ↦ v` in its place. -/
def insertIn (k : κ) (v : ν) : List (κ × ν) → List (κ × ν)
  | [] => [(k, v)]
  | (l, u) :: es =>
    if k < l then (k, v) :: (l, u) :: es
    else if k = l then (k, v) :: es
    else (l, u) :: insertIn k v es

variable {es : List (κ × ν)} {k : κ} {v : ν} {μ : Type*} {m : OrdMap κ ν} {p : κ → Bool}

theorem mem_insertIn {e : κ × ν} (h : e ∈ insertIn k v es) : e = (k, v) ∨ e ∈ es := by
  induction es with
  | nil => exact .inl (mem_singleton.1 h)
  | cons a es ih =>
    unfold insertIn at h
    split at h
    · exact mem_cons.1 h
    split at h
    · rcases mem_cons.1 h with h | h
      · exact .inl h
      · exact .inr (mem_cons_of_mem _ h)
    · rcases mem_cons.1 h with h | h
      · exact .inr (h ▸ mem_cons_self)
      · exact (ih h).imp_right (mem_cons_of_mem _)

theorem sorted_insertIn (hs : es.Pairwise fun a b => a.1 < b.1) :
    (insertIn k v es).Pairwise fun a b => a.1 < b.1 := by
  induction es with
  | nil => exact pairwise_singleton _ _
  | cons a es ih =>
    obtain ⟨ha, hes⟩ := pairwise_cons.1 hs
    unfold insertIn
    split <;> rename_i hlt
    · refine pairwise_cons.2 ⟨fun e he => ?_, hs⟩
      rcases mem_cons.1 he with rfl | he
      · exact hlt
      · exact lt_trans hlt (ha e he)
    · split
      · rename_i heq
        subst heq
        exact pairwise_cons.2 ⟨ha, hes⟩
      · rename_i hne
        refine pairwise_cons.2 ⟨fun e he => ?_, ih hes⟩
        rcases mem_insertIn he with rfl | he
        · exact lt_of_le_of_ne (not_lt.1 hlt) (Ne.symm hne)
        · exact ha e he

/-- `map::operator[]` followed by an assignment. -/
def insert (m : OrdMap κ ν) (k : κ) (v : ν) : OrdMap κ ν :=
  ⟨insertIn k v m.entries, sorted_insertIn m.sorted⟩

/-- `map::erase`. -/
def erase (m : OrdMap κ ν) (k : κ) : OrdMap κ ν :=
  ⟨m.entries.filter fun e => e.1 ≠ k, m.sorted.filter _⟩

/-- The keys, in order. -/
def keys (m : OrdMap κ ν) : List κ := m.entries.map Prod.fst

/-- `f` applied to every value of a list of pairs, if it is defined on all of them. -/
def traverseIn {μ : Type*} (f : κ → ν → Option μ) : List (κ × ν) → Option (List (κ × μ))
  | [] => some []
  | (k, v) :: es => (f k v).bind fun u => (traverseIn f es).map fun fs => (k, u) :: fs

variable {f : κ → ν → Option μ}

omit [LinearOrder κ] in
theorem keys_traverseIn {fs : List (κ × μ)} (h : traverseIn f es = some fs) :
    fs.map Prod.fst = es.map Prod.fst := by
  induction es generalizing fs with
  | nil =>
    cases h
    rfl
  | cons e es ih =>
    obtain ⟨u, -, h⟩ := bind_eq_some_iff.1 h
    obtain ⟨fs', hfs, rfl⟩ := map_eq_some_iff.1 h
    rw [map_cons, map_cons, ih hfs]

/-- A loop that updates every value with `f`, which may fail. -/
def traverse {μ : Type*} (m : OrdMap κ ν) (f : κ → ν → Option μ) : Option (OrdMap κ μ) :=
  match h : traverseIn f m.entries with
  | none => none
  | some es => some ⟨es, List.pairwise_map.1 (keys_traverseIn h ▸ List.pairwise_map.2 m.sorted)⟩

/-- The first entry whose key has the property `p`. -/
def first (m : OrdMap κ ν) (p : κ → Bool) : Option (κ × ν) := m.entries.find? fun e => p e.1

/-- `map::lower_bound`. -/
def lowerBound (m : OrdMap κ ν) (k : κ) : Option (κ × ν) := m.first fun l => k ≤ l

/-- `map::upper_bound`. -/
def upperBound (m : OrdMap κ ν) (k : κ) : Option (κ × ν) := m.first fun l => k < l

theorem find?_eq_some_iff : m.find? k = some v ↔ (k, v) ∈ m.entries := by
  obtain ⟨es, hs⟩ := m
  show findIn k es = some v ↔ (k, v) ∈ es
  induction es with
  | nil => simp [findIn]
  | cons a es ih =>
    obtain ⟨l, u⟩ := a
    obtain ⟨ha, hes⟩ := pairwise_cons.1 hs
    rw [findIn, mem_cons]
    by_cases hl : l = k
    · subst hl
      rw [if_pos rfl]
      constructor
      · intro h
        exact .inl (by rw [some.inj h])
      · rintro (h | h)
        · rw [(Prod.mk.inj h).2]
        · exact absurd (ha _ h) (lt_irrefl _)
    · rw [if_neg hl, ih hes]
      constructor
      · exact .inr
      · rintro (h | h)
        · exact absurd (Prod.mk.inj h).1.symm hl
        · exact h

@[simp] theorem find?_empty (k : κ) : (empty : OrdMap κ ν).find? k = none := rfl

@[simp] theorem find?_insert (m : OrdMap κ ν) (k l : κ) (v : ν) :
    (m.insert k v).find? l = if l = k then some v else m.find? l := by
  obtain ⟨es, hs⟩ := m
  show findIn l (insertIn k v es) = if l = k then some v else findIn l es
  have hnew : ∀ fs : List (κ × ν),
      findIn l ((k, v) :: fs) = if l = k then some v else findIn l fs := by
    intro fs
    simp only [findIn, eq_comm]
  induction es with
  | nil => exact hnew []
  | cons a es ih =>
    obtain ⟨l', u⟩ := a
    obtain ⟨-, hes⟩ := pairwise_cons.1 hs
    rw [insertIn]
    by_cases hlt : k < l'
    · rw [if_pos hlt, hnew]
    rw [if_neg hlt]
    by_cases hk : k = l'
    · subst hk
      rw [if_pos rfl, hnew]
      by_cases h : l = k
      · rw [if_pos h, if_pos h]
      · rw [if_neg h, if_neg h, findIn, if_neg (Ne.symm h)]
    · rw [if_neg hk, findIn, findIn, ih hes]
      by_cases h : l = k
      · subst h
        rw [if_neg (Ne.symm hk), if_pos rfl, if_pos rfl]
      · rw [if_neg h, if_neg h]

/-- Assigning the value that is there changes nothing. -/
theorem insert_of_find? (h : m.find? k = some v) : m.insert k v = m := by
  obtain ⟨es, hs⟩ := m
  have hin : insertIn k v es = es := by
    replace h : findIn k es = some v := h
    induction es with
    | nil => nomatch h
    | cons a es ih =>
      obtain ⟨l, u⟩ := a
      obtain ⟨ha, hes⟩ := pairwise_cons.1 hs
      rw [findIn] at h
      split_ifs at h with hl
      · rw [insertIn, if_neg (hl ▸ lt_irrefl l), if_pos hl.symm, some.inj h, hl]
      · have hlt : l < k := ha (k, v) (find?_eq_some_iff (m := ⟨es, hes⟩).1 h)
        rw [insertIn, if_neg hlt.not_gt, if_neg (Ne.symm hl), ih hes h]
  simp only [insert, hin]

@[simp] theorem find?_erase (m : OrdMap κ ν) (k l : κ) :
    (m.erase k).find? l = if l = k then none else m.find? l := by
  ext v
  rw [find?_eq_some_iff]
  by_cases h : l = k
  · subst h
    simp [erase]
  · rw [if_neg h, find?_eq_some_iff]
    simp [erase, h]

theorem find?_of_isEmpty (h : m.isEmpty = true) (k : κ) : m.find? k = none := by
  rw [find?, isEmpty_iff.1 h]
  rfl

/-- **The first entry with the property is the one with the least key.** -/
theorem first_eq_some (h : m.first p = some (k, v)) :
    m.find? k = some v ∧ p k = true ∧ ∀ l u, m.find? l = some u → p l = true → k ≤ l := by
  obtain ⟨hp, es, fs, he, hes⟩ := List.find?_eq_some_iff_append.1 h
  refine ⟨find?_eq_some_iff.2 (he ▸ by simp), hp, fun l u hl hpl => ?_⟩
  rw [find?_eq_some_iff, he] at hl
  have hs := m.sorted
  rw [he, pairwise_append, pairwise_cons] at hs
  rcases mem_append.1 hl with hl | hl
  · have := hes _ hl
    simp [hpl] at this
  · rcases mem_cons.1 hl with hl | hl
    · exact (Prod.mk.inj hl).1.ge
    · exact (hs.2.1.1 _ hl).le

theorem first_eq_none (h : m.first p = none) {l : κ} {u : ν}
    (hl : m.find? l = some u) : p l = false := by
  have := List.find?_eq_none.1 h _ (find?_eq_some_iff.1 hl)
  simpa using this

theorem mem_keys : k ∈ m.keys ↔ ∃ v, m.find? k = some v := by
  rw [keys, List.mem_map]
  constructor
  · rintro ⟨⟨l, v⟩, he, rfl⟩
    exact ⟨v, find?_eq_some_iff.2 he⟩
  · rintro ⟨v, hv⟩
    exact ⟨(k, v), find?_eq_some_iff.1 hv, rfl⟩

theorem nodup_keys (m : OrdMap κ ν) : m.keys.Nodup :=
  (pairwise_map.2 m.sorted).imp fun h => h.ne

variable {m' : OrdMap κ μ}

theorem entries_traverse
    (h : m.traverse f = some m') : traverseIn f m.entries = some m'.entries := by
  unfold traverse at h
  split at h
  · nomatch h
  · rename_i es hes
    cases h
    exact hes

/-- **`traverse` updates every value.** -/
theorem find?_traverse
    (h : m.traverse f = some m') (k : κ) : m'.find? k = (m.find? k).bind (f k) := by
  have hes := entries_traverse h
  show findIn k m'.entries = (findIn k m.entries).bind (f k)
  generalize m.entries = es at hes
  generalize m'.entries = fs at hes
  induction es generalizing fs with
  | nil =>
    cases hes
    rfl
  | cons e es ih =>
    obtain ⟨u, hu, hes⟩ := bind_eq_some_iff.1 hes
    obtain ⟨fs', hfs, rfl⟩ := map_eq_some_iff.1 hes
    rw [findIn, findIn]
    split_ifs with hl
    · rw [← hl, bind_some, hu]
    · exact ih fs' hfs

theorem keys_traverse (h : m.traverse f = some m') : m'.keys = m.keys :=
  keys_traverseIn (entries_traverse h)

theorem traverse_isSome
    (h : ∀ k v, m.find? k = some v → ∃ u, f k v = some u) : ∃ m', m.traverse f = some m' := by
  have hin : ∀ es : List (κ × ν), (∀ e ∈ es, ∃ u, f e.1 e.2 = some u) →
      ∃ fs, traverseIn f es = some fs := by
    intro es
    induction es with
    | nil => exact fun _ => ⟨[], rfl⟩
    | cons e es ih =>
      intro hes
      obtain ⟨u, hu⟩ := hes e mem_cons_self
      obtain ⟨fs, hfs⟩ := ih fun e' he' => hes e' (mem_cons_of_mem e he')
      exact ⟨(e.1, u) :: fs, by rw [traverseIn, hu, bind_some, hfs, map_some]⟩
  obtain ⟨fs, hfs⟩ := hin m.entries fun e he => h e.1 e.2 (find?_eq_some_iff.2 he)
  unfold traverse
  split
  · rename_i hnone
    nomatch hfs.symm.trans hnone
  · exact ⟨_, rfl⟩

/-- A fold over the elements that the entries contribute, where only those of the key `k` have an
effect. -/
theorem foldl_flatMap {α β : Type*} (m : OrdMap κ ν) (k : κ) (f : κ → ν → List β)
    (g : α → β → α) (h : ∀ l v, l ≠ k → ∀ b ∈ f l v, ∀ a, g a b = a) (a : α) :
    (m.entries.flatMap fun e => f e.1 e.2).foldl g a = ((m.find? k).elim [] (f k)).foldl g a := by
  have hskip : ∀ (bs : List β) (a : α), (∀ b ∈ bs, ∀ a, g a b = a) → bs.foldl g a = a := by
    intro bs
    induction bs with
    | nil => exact fun _ _ => rfl
    | cons b bs ih =>
      intro a hbs
      rw [foldl_cons, hbs b mem_cons_self]
      exact ih a fun c hc => hbs c (mem_cons_of_mem b hc)
  obtain ⟨es, hs⟩ := m
  show _ = ((findIn k es).elim [] (f k)).foldl g a
  induction es generalizing a with
  | nil => rfl
  | cons e es ih =>
    obtain ⟨l, v⟩ := e
    obtain ⟨hl, hes⟩ := pairwise_cons.1 hs
    rw [flatMap_cons, foldl_append, findIn]
    by_cases hk : l = k
    · subst hk
      rw [if_pos rfl, elim_some]
      -- the keys that follow are larger
      refine hskip _ _ fun b hb => ?_
      obtain ⟨e, he, hb⟩ := mem_flatMap.1 hb
      exact h e.1 e.2 (hl e he).ne' b hb
    · rw [if_neg hk, hskip _ _ (h l v hk)]
      exact ih a hes

end OrdMap

end NoxClassic.Lib
