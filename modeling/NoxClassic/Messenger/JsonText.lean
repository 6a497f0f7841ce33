/-
# JSON object texts on a messenger connection

The grammar of JSON texts over bytes, and what `jsonmessenger` does with a sequence of
object texts.

The messenger counts brackets and braces in strings too.  An object text comes out as it
went in if, counted like that, something is open from its first byte to its last
(`OpensOnce`); and if the texts before the last have four bytes at least and do not make
the messenger erase its counters.  Otherwise some way to receive the texts gives other
messages (`object_texts_received`).
-/

import NoxClassic.Messenger.Json

namespace NoxClassic.Messenger.Json

open Connection
open List hiding Vector

/-! ### The grammar -/

/-- The quotation mark. -/
def quote : UInt8 := 0x22

/-- White space. -/
def IsSpace (s : List UInt8) : Prop :=
  ∀ b ∈ s, b = 0x20 ∨ b = 0x09 ∨ b = 0x0a ∨ b = 0x0d

/-- A digit. -/
def IsDigit (b : UInt8) : Prop := 0x30 ≤ b ∧ b ≤ 0x39

/-- A hexadecimal digit. -/
def IsHex (b : UInt8) : Prop :=
  IsDigit b ∨ (0x41 ≤ b ∧ b ≤ 0x46) ∨ (0x61 ≤ b ∧ b ≤ 0x66)

/-- A number: sign, integer part, fraction and exponent, all but the second optional. -/
inductive IsNumber : List UInt8 → Prop where
  | mk {sign int frac exp : List UInt8} (hsign : sign = [] ∨ sign = [0x2d])
      (hint : int = [0x30] ∨ ∃ d ds, int = d :: ds ∧ 0x31 ≤ d ∧ d ≤ 0x39 ∧ ∀ b ∈ ds, IsDigit b)
      (hfrac : frac = [] ∨ ∃ ds, frac = 0x2e :: ds ∧ ds ≠ [] ∧ ∀ b ∈ ds, IsDigit b)
      (hexp : exp = [] ∨ ∃ e s ds, exp = e :: (s ++ ds) ∧ (e = 0x65 ∨ e = 0x45) ∧
        (s = [] ∨ s = [0x2b] ∨ s = [0x2d]) ∧ ds ≠ [] ∧ ∀ b ∈ ds, IsDigit b) :
      IsNumber (sign ++ int ++ frac ++ exp)

/-- What may follow a backslash, apart from `u` and four hexadecimal digits. -/
def escapes : List UInt8 := [0x22, 0x5c, 0x2f, 0x62, 0x66, 0x6e, 0x72, 0x74]

/-- `true`, `false` and `null`. -/
def literals : List (List UInt8) :=
  [[0x74, 0x72, 0x75, 0x65], [0x66, 0x61, 0x6c, 0x73, 0x65], [0x6e, 0x75, 0x6c, 0x6c]]

/-- The bytes that JSON allows in a string without an escape. -/
def Unescaped (b : UInt8) : Prop := 0x20 ≤ b ∧ b ≠ quote ∧ b ≠ backslash

/-- The characters of a string. -/
inductive IsChars : List UInt8 → Prop where
  | nil : IsChars []
  | plain {b : UInt8} {s : List UInt8} (hb : Unescaped b) (hs : IsChars s) : IsChars (b :: s)
  | escape {b : UInt8} {s : List UInt8} (hb : b ∈ escapes) (hs : IsChars s) :
      IsChars (backslash :: b :: s)
  | unicode {a b c d : UInt8} {s : List UInt8} (ha : IsHex a) (hb : IsHex b) (hc : IsHex c)
      (hd : IsHex d) (hs : IsChars s) :
      IsChars (backslash :: 0x75 :: a :: b :: c :: d :: s)

/-- A string. -/
inductive IsString : List UInt8 → Prop where
  | mk {s : List UInt8} (hs : IsChars s) : IsString (quote :: (s ++ [quote]))

/-- The categories of the grammar that refer to each other. -/
inductive Category where
  | value
  | object
  | members
  | elements

/-- `Derives k s`: the bytes `s` are a text of category `k`.  Members and elements come with the
white space around them. -/
inductive Derives : Category → List UInt8 → Prop where
  | literal {s : List UInt8} (hs : s ∈ literals) : Derives .value s
  | number {s : List UInt8} (hs : IsNumber s) : Derives .value s
  | string {s : List UInt8} (hs : IsString s) : Derives .value s
  | ofObject {s : List UInt8} (hs : Derives .object s) : Derives .value s
  | emptyArray {w : List UInt8} (hw : IsSpace w) : Derives .value (lbrack :: (w ++ [rbrack]))
  | array {s : List UInt8} (hs : Derives .elements s) :
      Derives .value (lbrack :: (s ++ [rbrack]))
  | emptyObject {w : List UInt8} (hw : IsSpace w) : Derives .object (lbrace :: (w ++ [rbrace]))
  | object {s : List UInt8} (hs : Derives .members s) :
      Derives .object (lbrace :: (s ++ [rbrace]))
  | element {w v w' : List UInt8} (hw : IsSpace w) (hv : Derives .value v) (hw' : IsSpace w') :
      Derives .elements (w ++ v ++ w')
  | moreElements {w v w' s : List UInt8} (hw : IsSpace w) (hv : Derives .value v)
      (hw' : IsSpace w') (hs : Derives .elements s) :
      Derives .elements (w ++ v ++ w' ++ 0x2c :: s)
  | member {w k w' u v u' : List UInt8} (hw : IsSpace w) (hk : IsString k) (hw' : IsSpace w')
      (hu : IsSpace u) (hv : Derives .value v) (hu' : IsSpace u') :
      Derives .members (w ++ k ++ w' ++ 0x3a :: (u ++ v ++ u'))
  | moreMembers {w k w' u v u' s : List UInt8} (hw : IsSpace w) (hk : IsString k)
      (hw' : IsSpace w') (hu : IsSpace u) (hv : Derives .value v) (hu' : IsSpace u')
      (hs : Derives .members s) :
      Derives .members (w ++ k ++ w' ++ 0x3a :: (u ++ v ++ u' ++ 0x2c :: s))

/-- A JSON object text. -/
def IsObjectText (s : List UInt8) : Prop := Derives .object s

/-! ### Counting -/

/-- The counters after `s`, whose first byte follows `prev`. -/
def tally : Counters → UInt8 → List UInt8 → Counters
  | c, _, [] => c
  | c, prev, b :: bs => tally (c.count prev b) b bs

theorem tally_append (c : Counters) (prev : UInt8) (s t : List UInt8) :
    tally c prev (s ++ t) = tally (tally c prev s) (s.getLastD prev) t := by
  induction s generalizing c prev with
  | nil => rfl
  | cons b bs ih => rw [cons_append, tally, tally, ih, getLastD_cons]

/-! ### A sequence of object texts -/

/-- A text that is open from its first byte to its last. -/
structure OpensOnce (t : List UInt8) : Prop where
  closed : tally .zero 0 t = .zero
  opened : ∀ p, p <+: t → p ≠ [] → p ≠ t → (tally .zero 0 p).balanced = false

variable {d : List UInt8 → Bool} {c : Counters} {b : UInt8} {h r s t : List UInt8}
  {g : Bool} {ts ms : List (List UInt8)}

/-- Bytes that leave something open are held, and nothing is passed on. -/
theorem feed_of_open (hmax : (h ++ s).length ≤ maxMsgSize)
    (hopen : ∀ p, p <+: s → p ≠ [] → (tally c (lastByte h) p).balanced = false) :
    feed c h (s ++ r) = feed (tally c (lastByte h) s) (h ++ s) r ∧
      (Throughout d Good false (tally c (lastByte h) s) (h ++ s) r →
        Throughout d Good false c h (s ++ r)) := by
  induction s generalizing c h with
  | nil => simp [tally]
  | cons b bs ih =>
    have hbal : (c.next h b).balanced = false :=
      hopen [b] (prefix_append [b] bs) (cons_ne_nil _ _)
    have hp : ¬ Passed (c.next h b) (h ++ [b]) (bs ++ r) := fun hp =>
      absurd (hbal.symm.trans hp.1) (by decide)
    have hlast : lastByte (h ++ [b]) = b := getLastD_concat
    have happ : (h ++ [b]) ++ bs = h ++ b :: bs := by rw [append_assoc]; rfl
    obtain ⟨hfeed, hthr⟩ := ih (c := c.next h b) (h := h ++ [b])
      (by rw [happ]; exact hmax) fun p hp _ => by
        rw [hlast]
        exact hopen (b :: p) (cons_prefix_cons.2 ⟨rfl, hp⟩) (cons_ne_nil _ _)
    rw [hlast, happ] at hfeed hthr
    rw [cons_append, feed_of_not hp, hfeed]
    refine ⟨rfl, fun hr => ⟨⟨?_, fun _ _ => hbal, nofun⟩, ?_⟩⟩
    · refine le_trans ?_ hmax
      rw [← happ, @length_append _ (h ++ [b])]
      exact Nat.le_add_right _ _
    · rw [if_neg hp]
      exact hthr hr

/-- A text that is open from its first byte to its last is passed on, and the scan starts over
behind it. -/
theorem OpensOnce.feed (h : OpensOnce t) (hmin : 4 ≤ t.length ∨ r = [] ∧ 2 ≤ t.length)
    (hmax : t.length ≤ maxMsgSize) :
    feed .zero [] (t ++ r) = (t :: (feed .zero [] r).1, (feed .zero [] r).2) ∧
      (Throughout d Good (d t) .zero [] r →
        Throughout d Good false .zero [] (t ++ r)) := by
  rcases eq_nil_or_concat' t with rfl | ⟨l, b, rfl⟩
  · exact absurd hmin (by simp)
  have hl : ∀ p, p <+: l → p ≠ [] → (tally .zero (lastByte []) p).balanced = false := by
    refine fun p hp hne => h.opened p (hp.trans (prefix_append l [b])) hne ?_
    rintro rfl
    exact absurd hp.length_le (by simp)
  obtain ⟨hfeed, hthr⟩ := feed_of_open (d := d) (r := [b] ++ r) (h := [])
    (le_trans (by simp) hmax) hl
  -- the last byte closes what the first one opened
  have hzero : (tally .zero 0 l).next l b = .zero := by
    have hclosed := h.closed
    rw [tally_append] at hclosed
    exact hclosed
  have hp : Passed ((tally .zero 0 l).next l b) (l ++ [b]) r :=
    ⟨by rw [hzero]; rfl, hmin⟩
  rw [append_assoc, hfeed]
  refine ⟨?_, fun hr => hthr ⟨⟨hmax, fun hne hlen => ?_, nofun⟩, ?_⟩⟩
  · have hlast := feed_of_passed hp
    rwa [hzero] at hlast
  · have hfour := hmin.resolve_right fun hnil => hne hnil.1
    exact absurd hlen (by rw [nil_append]; omega)
  · change if Passed ((tally .zero 0 l).next l b) (l ++ [b]) r then
      Throughout d Good (false || d (l ++ [b]))
        ((tally .zero 0 l).next l b) [] r else _
    rw [if_pos hp, hzero, Bool.false_or]
    exact hr

theorem feed_objects (hts : ∀ t ∈ ts, OpensOnce t ∧ 3 ≤ t.length ∧ t.length ≤ maxMsgSize)
    (hinit : ∀ t ∈ ts.dropLast, 4 ≤ t.length ∧ d t = false) :
    (feed .zero [] ts.flatten).1 = ts ∧
      Throughout d Good false .zero [] ts.flatten := by
  induction ts with
  | nil => exact ⟨rfl, trivial⟩
  | cons t ts ih =>
    obtain ⟨⟨hone, hthree, hmax⟩, hts⟩ := forall_mem_cons.1 hts
    rw [flatten_cons]
    cases ts with
    | nil =>
      obtain ⟨hfeed, hthr⟩ := hone.feed (d := d) (r := []) (.inr ⟨rfl, by omega⟩)
        hmax
      exact ⟨congrArg Prod.fst hfeed, hthr trivial⟩
    | cons t' ts =>
      obtain ⟨⟨hfour, hdisc⟩, hinit⟩ := forall_mem_cons.1 hinit
      obtain ⟨ihfeed, ihthr⟩ := ih hts hinit
      obtain ⟨hfeed, hthr⟩ := hone.feed (d := d) (r := (t' :: ts).flatten)
        (.inl hfour) hmax
      exact ⟨by rw [hfeed, ihfeed], hthr (hdisc ▸ ihthr)⟩

/-- What is passed on is longer than what was held. -/
theorem longer_feed : ∀ m ∈ (feed c h s).1.head?, h.length < m.length := by
  induction s generalizing c h with
  | nil => exact nofun
  | cons b bs ih =>
    intro m hm
    by_cases hp : Passed (c.next h b) (h ++ [b]) bs
    · rw [feed_of_passed hp] at hm
      obtain rfl := Option.some.inj hm
      simp
    · rw [feed_of_not hp] at hm
      exact lt_trans (by simp) (ih m hm)

/-- **A message of a steady stream** has something open before its end, and nothing there. -/
theorem opens_of_feed {u : List UInt8} (hu : u ≠ [])
    (hfeed : (feed c h (u ++ r)).1 = (h ++ u) :: ms)
    (hgood : Throughout d Good g c h (u ++ r))
    (hfirst : h = [] → ∀ b ∈ u.head?, (c.next h b).balanced = false) :
    tally c (lastByte h) u = .zero ∧
      (∀ p, p <+: u → p ≠ [] → p ≠ u → (tally c (lastByte h) p).balanced = false) ∧
      (r ≠ [] → 4 ≤ (h ++ u).length) ∧ (feed .zero [] r).1 = ms ∧
      Throughout d Good (g || d (h ++ u)) .zero [] r := by
  induction u generalizing c h with
  | nil => exact absurd rfl hu
  | cons b u ih =>
    obtain ⟨⟨-, hsteady⟩, hgood⟩ := hgood
    have happ : (h ++ [b]) ++ u = h ++ b :: u := by rw [append_assoc]; rfl
    rw [cons_append] at hfeed
    by_cases hp : Passed (c.next h b) (h ++ [b]) (u ++ r)
    · rw [feed_of_passed hp] at hfeed
      obtain ⟨hmsg, hms⟩ := cons.inj hfeed
      obtain rfl : u = [] := ((cons.inj (append_cancel_left hmsg)).2).symm
      rw [append_eq, if_pos hp, balanced_iff.1 hp.1] at hgood
      rw [balanced_iff.1 hp.1] at hms
      refine ⟨balanced_iff.1 hp.1, fun p hpre hne hproper => ?_, fun hr => ?_, hms, hgood⟩
      · rcases prefix_cons_iff.1 hpre with rfl | ⟨q, rfl, hq⟩
        · exact absurd rfl hne
        · exact absurd (by rw [prefix_nil.1 hq]) hproper
      · exact hp.2.resolve_right fun hnil => hr hnil.1
    · rw [feed_of_not hp] at hfeed
      rw [append_eq, if_neg hp] at hgood
      have hne : u ≠ [] := by
        rintro rfl
        have hlong := longer_feed (c := c.next h b) (h := h ++ [b]) (s := [] ++ r)
          (h ++ [b]) (by rw [hfeed]; rfl)
        exact absurd hlong (lt_irrefl _)
      have hlast : lastByte (h ++ [b]) = b := getLastD_concat
      obtain ⟨hzero, hopen, hrest⟩ := ih hne (happ.symm ▸ hfeed) hgood fun hnil =>
        absurd hnil (by simp)
      rw [hlast] at hzero hopen
      rw [happ] at hrest
      have hun : (c.next h b).balanced = false := by
        by_contra hbal
        rw [Bool.not_eq_false] at hbal
        have hlen : (h ++ [b]).length = h.length + 1 := length_append
        have hfour : ¬ 4 ≤ (h ++ [b]).length := fun hfour => hp ⟨hbal, .inl hfour⟩
        by_cases hnil : h = []
        · rw [hfirst hnil b rfl] at hbal
          exact absurd hbal (by decide)
        · have hpos := length_pos_of_ne_nil hnil
          rw [hsteady.1 (by simp [hne]) (by omega)] at hbal
          exact absurd hbal (by decide)
      refine ⟨hzero, fun p hpre hpne hproper => ?_, hrest⟩
      rcases prefix_cons_iff.1 hpre with rfl | ⟨q, rfl, hq⟩
      · exact absurd rfl hpne
      · by_cases hqne : q = []
        · rw [hqne]
          exact hun
        · exact hopen q hq hqne fun heq => hproper (by rw [heq])

/-- The second byte of an object text opens nothing. -/
theorem IsObjectText.second (h : IsObjectText t) :
    ∃ x l, t = lbrace :: x :: l ∧ ∀ h, ¬ Opens h x := by
  have hspace {w l : List UInt8} {y : UInt8} (hw : IsSpace w) (hy : y ≠ lbrack ∧ y ≠ lbrace) :
      ∃ x l', w ++ y :: l = x :: l' ∧ ∀ h, ¬ Opens h x := by
    cases w with
    | nil => exact ⟨y, l, rfl, fun _ ho => ho.2.elim hy.1 hy.2⟩
    | cons x w =>
      refine ⟨x, w ++ y :: l, rfl, fun _ ho => ?_⟩
      rcases hw x mem_cons_self with rfl | rfl | rfl | rfl <;>
        exact absurd ho.2 (by decide)
  have hmembers {m : List UInt8} (hm : Derives .members m) (l : List UInt8) :
      ∃ x l', m ++ l = x :: l' ∧ ∀ h, ¬ Opens h x := by
    cases hm with
    | member hw hk | moreMembers hw hk =>
      obtain ⟨hs⟩ := hk
      simp only [append_assoc, cons_append]
      exact hspace hw (by decide)
  cases h with
  | emptyObject hw =>
    obtain ⟨x, l, heq, hx⟩ := hspace (l := []) hw (y := rbrace) (by decide)
    exact ⟨x, l, by rw [heq], hx⟩
  | object hs =>
    obtain ⟨x, l, heq, hx⟩ := hmembers hs [rbrace]
    exact ⟨x, l, by rw [heq], hx⟩

theorem objects_of_feed
    (hts : ∀ t ∈ ts, IsObjectText t ∧ 3 ≤ t.length ∧ t.length ≤ maxMsgSize)
    (hfeed : (feed .zero [] ts.flatten).1 = ts)
    (hgood : Throughout d Good g .zero [] ts.flatten) :
    (∀ t ∈ ts, OpensOnce t) ∧ (∀ t ∈ ts.dropLast, 4 ≤ t.length ∧ d t = false) ∧
      (ts ≠ [] → g = false) := by
  induction ts generalizing g with
  | nil => exact ⟨nofun, nofun, fun h => absurd rfl h⟩
  | cons t ts ih =>
    obtain ⟨⟨ht, hthree, -⟩, htail⟩ := forall_mem_cons.1 hts
    obtain ⟨x, l, rfl, hx⟩ := ht.second
    have hun : (Counters.zero.next [] lbrace).balanced = false := by decide
    obtain ⟨hzero, hopen, hfour, hms, hrest⟩ := opens_of_feed (cons_ne_nil _ _) hfeed hgood
      fun _ b hb => Option.some.inj hb ▸ hun
    obtain ⟨hones, hinit, hgone⟩ := ih htail hms hrest
    have hl : l ≠ [] := by
      rintro rfl
      exact absurd hthree (by simp)
    refine ⟨forall_mem_cons.2 ⟨⟨hzero, hopen⟩, hones⟩, ?_, fun _ => ?_⟩
    · cases ts with
      | nil => exact nofun
      | cons t' ts =>
        have ht' : t' ≠ [] := by
          rintro rfl
          exact absurd (htail [] mem_cons_self).2.1 (by decide)
        refine forall_mem_cons.2 ⟨⟨hfour (by simp [ht']), ?_⟩, hinit⟩
        exact (Bool.or_eq_false_iff.1 (hgone (cons_ne_nil _ _))).2
    · -- with the counters erased behind the first byte, the second would be the end
      by_contra hg
      rw [Bool.not_eq_false] at hg
      obtain ⟨-, hgood⟩ := hgood
      obtain ⟨⟨-, hsteady⟩, -⟩ := hgood
      have hbal := (hsteady.2 hg hun).resolve_left (hx _)
      rw [hsteady.1 (by simp [hl]) (.inl rfl)] at hbal
      exact absurd hbal (by decide)

variable (d)

/-- **Object texts come out as they went in**, one message for each and in order, in blocks of any
sizes and whenever the events are handled, exactly if each is open from its first byte to its last,
and those before the last have at least four bytes and do not disconnect. -/
theorem object_texts_received (ts : List (List UInt8))
    (hts : ∀ t ∈ ts, IsObjectText t ∧ 3 ≤ t.length ∧ t.length ≤ maxMsgSize) :
    (∀ junk inputs, Over ts.flatten inputs → (receives d junk inputs).finished = true ∧
      (receives d junk inputs).msgs = ts) ↔
    (∀ t ∈ ts, OpensOnce t) ∧ ∀ t ∈ ts.dropLast, 4 ≤ t.length ∧ d t = false := by
  have hsteady (hgood : Throughout d Good false .zero [] ts.flatten)
      (junk : Vector UInt8 maxMsgSize) (inputs : List Input) (hover : Over ts.flatten inputs) :
      (receives d junk inputs).finished = true ∧
        (receives d junk inputs).msgs = (feed .zero [] ts.flatten).1 :=
    run_steady (sized_init junk Counters.zero) (.inl rfl) nofun hgood hover.bytes
  constructor
  · intro hall
    have junk : Vector UInt8 maxMsgSize := Vector.replicate maxMsgSize 0
    have hgood := Settled.good (d := d) (sized_init junk Counters.zero) rfl (fun _ => rfl)
      (fun inputs₁ inputs₂ h₁ h₂ => (hall junk _ h₁).2.trans (hall junk _ h₂).2.symm)
      (.inr fun inputs hover => (hall junk inputs hover).1)
    obtain ⟨inputs, hover⟩ := exists_over ts.flatten
    have hfeed := (hsteady hgood junk inputs hover).2.symm.trans (hall junk inputs hover).2
    obtain ⟨hones, hinit, -⟩ := objects_of_feed hts hfeed hgood
    exact ⟨hones, hinit⟩
  · rintro ⟨hones, hinit⟩ junk inputs hover
    obtain ⟨hfeed, hgood⟩ := feed_objects (fun t ht => ⟨hones t ht, (hts t ht).2⟩) hinit
    have hrun := hsteady hgood junk inputs hover
    rwa [hfeed] at hrun

/-- The object text `{"":1}`. -/
def oneMember : List UInt8 := [0x7b, 0x22, 0x22, 0x3a, 0x31, 0x7d]

/-- An object with one member whose name is empty and around which there is no white space. -/
theorem derives_oneMember {v : List UInt8} (hv : Derives .value v) :
    Derives .object (lbrace :: ([] ++ (quote :: ([] ++ [quote])) ++ [] ++
      0x3a :: ([] ++ v ++ []) ++ [rbrace])) := by
  have hspace : IsSpace [] := nofun
  exact .object (.member hspace ⟨.nil⟩ hspace hspace hv hspace)

theorem derives_value_one : Derives .value ([] ++ [0x31] ++ [] ++ []) :=
  .number ⟨.inl rfl, .inr ⟨0x31, [], rfl, by decide, by decide, nofun⟩, .inl rfl, .inl rfl⟩

theorem opensOnce_oneMember : OpensOnce oneMember := by
  have hopened : ∀ n < 6, n ≠ 0 → (tally .zero 0 (oneMember.take n)).balanced = false := by decide
  refine ⟨rfl, fun p hp hne hproper => ?_⟩
  rw [prefix_iff_eq_take.1 hp]
  have hlt : p.length < 6 := lt_of_le_of_ne hp.length_le fun h => hproper (hp.eq_of_length h)
  exact hopened _ hlt (mt length_eq_zero_iff.1 hne)

/-- An object text twice, cut in three blocks, with its event handled in between. -/
theorem object_texts_received_two :
    (receives (· = disconnectText) (Vector.replicate maxMsgSize 0)
      [.block [0x7b, 0x22], .block [0x22, 0x3a, 0x31, 0x7d, 0x7b], .handle,
        .block [0x22, 0x22, 0x3a, 0x31, 0x7d]]).msgs = [oneMember, oneMember] := by
  have htext : IsObjectText oneMember := derives_oneMember derives_value_one
  exact ((object_texts_received (· = disconnectText) [oneMember, oneMember]
    (by simpa using ⟨htext, by decide⟩)).2
    ⟨by simpa using opensOnce_oneMember, by decide⟩ _ _ ⟨rfl, by decide⟩).2

/-- The object text `{"":"}"}`, whose string holds a brace. -/
def braceInString : List UInt8 := [0x7b, 0x22, 0x22, 0x3a, 0x22, 0x7d, 0x22, 0x7d]

/-- **A brace in a string ends the message.**  The object text `{"":"}"}` is passed on as two
messages, its first six bytes and its last two.  Two object texts `{ }` of three bytes in one
block are passed on as one message.  And `{"":1}` behind a message that d, whose event is
handled after its first byte, is passed on as two. -/
theorem brace_in_string_cuts :
    IsObjectText braceInString ∧ IsObjectText [0x7b, 0x20, 0x7d] ∧
    (receives (· = disconnectText) (Vector.replicate maxMsgSize 0) [.block braceInString]).msgs =
      [[0x7b, 0x22, 0x22, 0x3a, 0x22, 0x7d], [0x22, 0x7d]] ∧
    (receives (· = disconnectText) (Vector.replicate maxMsgSize 0)
      [.block ([0x7b, 0x20, 0x7d] ++ [0x7b, 0x20, 0x7d])]).msgs =
      [[0x7b, 0x20, 0x7d, 0x7b, 0x20, 0x7d]] ∧
    (receives (· = disconnectText) (Vector.replicate maxMsgSize 0)
      [.block (disconnectText ++ [0x7b]), .handle, .block [0x22, 0x22, 0x3a, 0x31, 0x7d]]).msgs =
      [disconnectText, [0x7b, 0x22, 0x22, 0x3a], [0x31, 0x7d]] := by
  refine ⟨?_, ?_, by decide +kernel, by decide +kernel, by decide +kernel⟩
  · have hbrace : IsChars [0x7d] := .plain ⟨by decide, by decide, by decide⟩ .nil
    exact derives_oneMember (.string ⟨hbrace⟩)
  · exact .emptyObject (w := [0x20]) (by intro b hb; exact .inl (mem_singleton.1 hb))

end NoxClassic.Messenger.Json
