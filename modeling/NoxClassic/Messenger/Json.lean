/-
# The JSON messenger

`jsonmessenger::processBlock` and `msg_complete`
(`src/nox/coreapps/messenger/jsonmessenger.cc`).  The end of a message is found by
counting brackets and braces.  A byte behind a backslash is not counted, and a closing
bracket or brace that nothing opened is logged and otherwise ignored; strings are not
told from the rest.

Two tests decide whether a message is complete, and they differ.  While a block is
scanned, the message has to have at least four bytes (`currSize+j > 2` with an index `j`
that starts at 0); at the end of the block, two are enough (`currSize > 1`).  A message
in progress that is balanced with two or three bytes is therefore complete if the block
ends there, and goes on otherwise.

`handle_message` gets the messages back as events, at any time between two blocks.  One
whose type is `disconnect` makes it erase the counters of the connection, also when
part of a later message is held.  Whether a message is of that type is for `json_object`
to say, and enters as the function `d`.

`feed` is the scan without blocks.  Where a stream leaves none of the two tests and no
erased counter a choice (`Steady`), every way to cut it into blocks and to handle the
events gives what `feed` gives, and otherwise two ways differ (`blocks_irrelevant`).
-/

import NoxClassic.Messenger.Connection
import Mathlib.Data.List.GetD

namespace NoxClassic.Messenger.Json

open Connection
open List hiding Vector

/-- `[`, `]`, `{`, `}` and the backslash. -/
def lbrack : UInt8 := 0x5b

@[inherit_doc lbrack] def rbrack : UInt8 := 0x5d

@[inherit_doc lbrack] def lbrace : UInt8 := 0x7b

@[inherit_doc lbrack] def rbrace : UInt8 := 0x7d

@[inherit_doc lbrack] def backslash : UInt8 := 0x5c

/-- `jsonmessenger::counters`. -/
structure Counters where
  brackets : ℕ
  braces : ℕ
  deriving DecidableEq, Repr

namespace Counters

/-- `counters::reset`. -/
def zero : Counters := ⟨0, 0⟩

/-- `counters::balanced`. -/
def balanced (c : Counters) : Bool := c.brackets = 0 ∧ c.braces = 0

/-- The counters after one byte, which follows `prev`. -/
def count (c : Counters) (prev b : UInt8) : Counters :=
  if prev = backslash then c
  else if b = lbrack then { c with brackets := c.brackets + 1 }
  else if b = rbrack then { c with brackets := c.brackets - 1 }
  else if b = lbrace then { c with braces := c.braces + 1 }
  else if b = rbrace then { c with braces := c.braces - 1 }
  else c

end Counters

/-- The loop of `processBlock`: `n` is `currSize+j`.  The number of bytes to copy. -/
def scan : Counters → UInt8 → ℕ → List UInt8 → ℕ × Counters
  | c, _, _, [] => (0, c)
  | c, prev, n, b :: bs =>
    let c := c.count prev b
    if n > 2 ∧ c.balanced then (1, c)
    else
      let r := scan c b (n + 1) bs
      (r.1 + 1, r.2)

/-- `jsonmessenger::processBlock`. -/
def processBlock (c : Counters) (block data : List UInt8) (currSize : ℕ) : ℤ × Counters :=
  let prev := if currSize ≠ 0 then data.getD (currSize - 1) 0 else 0
  let r := scan c prev currSize block
  (r.1, r.2)

/-- `jsonmessenger` as a `message_processor`: its state for a connection is the entry of
`sock_counters`, and zero where there is none. -/
def processor : Processor Counters where
  processBlock := processBlock
  msgComplete c _ currSize := 1 < currSize ∧ c.balanced

/-- What a connection goes through: a block is read, or `jsonmessenger` handles the oldest event. -/
inductive Input where
  | block (bytes : List UInt8)
  | handle

/-- The blocks that are read. -/
def blocksOf (inputs : List Input) : List (List UInt8) :=
  inputs.filterMap fun
    | .block bytes => some bytes
    | .handle => none

variable (d : List UInt8 → Bool)

/-- `jsonmessenger::handle_message`. -/
def handleMessage (c : Connection Counters) (m : List UInt8) : Connection Counters :=
  if d m then { c with state := .zero } else c

/-- What a connection does with a block. -/
abbrev block (c : Connection Counters) (bytes : List UInt8) : Outcome Counters :=
  Connection.processBlock processor c bytes

/-- A run of a connection, with the messages whose events have been posted and not handled. -/
def run : Connection Counters → List (List UInt8) → List Input → Outcome Counters
  | c, _, [] => ⟨c, [], [], true⟩
  | c, posted, .block bytes :: inputs =>
    let o := block c bytes
    if o.finished then (run o.conn (posted ++ o.msgs) inputs).after o.msgs o.trace else o
  | c, [], .handle :: inputs => run c [] inputs
  | c, m :: posted, .handle :: inputs => run (handleMessage d c m) posted inputs

/-! ### The scan without blocks -/

/-- The byte before the next one. -/
def lastByte (h : List UInt8) : UInt8 := h.getLastD 0

/-- The counters after one byte of a message in progress. -/
abbrev Counters.next (c : Counters) (h : List UInt8) (b : UInt8) : Counters :=
  c.count (lastByte h) b

/-- The message in progress `h` is passed on, where `bs` is still to come. -/
def Passed (c : Counters) (h bs : List UInt8) : Prop :=
  c.balanced = true ∧ (4 ≤ h.length ∨ bs = [] ∧ 2 ≤ h.length)

instance (c : Counters) (h bs : List UInt8) : Decidable (Passed c h bs) :=
  inferInstanceAs (Decidable (_ ∧ _))

/-- The scan of a stream byte by byte: a message of at least four bytes is passed on when
it is balanced, and at the end of the stream one of two or three. -/
def feed : Counters → List UInt8 → List UInt8 → List (List UInt8) × Counters × List UInt8
  | c, h, [] => ([], c, h)
  | c, h, b :: bs =>
    let c := c.next h b
    if Passed c (h ++ [b]) bs then
      let r := feed c [] bs
      ((h ++ [b]) :: r.1, r.2)
    else feed c (h ++ [b]) bs

/-- What may hold at a byte of a stream: of whether a message that disconnects was passed on, the
counters, the message in progress, the byte and the rest. -/
abbrev Test := Bool → Counters → List UInt8 → UInt8 → List UInt8 → Prop

/-- `p` holds at every byte of the stream. -/
def Throughout (p : Test) :
    Bool → Counters → List UInt8 → List UInt8 → Prop
  | _, _, _, [] => True
  | g, c, h, b :: bs =>
    p g c h b bs ∧
      if Passed (c.next h b) (h ++ [b]) bs then
        Throughout p (g || d (h ++ [b])) (c.next h b) [] bs
      else Throughout p g (c.next h b) (h ++ [b]) bs

/-- The message in progress fits `internalrecvbuf`. -/
def Fits (_ : Bool) (_ : Counters) (h : List UInt8) (b : UInt8) (_ : List UInt8) : Prop :=
  (h ++ [b]).length ≤ maxMsgSize

/-- The byte opens a bracket or a brace. -/
def Opens (h : List UInt8) (b : UInt8) : Prop :=
  lastByte h ≠ backslash ∧ (b = lbrack ∨ b = lbrace)

/-- Unless the stream ends there, a message in progress of two or three bytes has something open.
And after a message that disconnects, what is open is followed by something that opens more, or that
closes the last of it. -/
def Steady (g : Bool) (c : Counters) (h : List UInt8) (b : UInt8) (bs : List UInt8) : Prop :=
  (bs ≠ [] → (h ++ [b]).length = 2 ∨ (h ++ [b]).length = 3 →
    (c.next h b).balanced = false) ∧
  (g = true → c.balanced = false →
    Opens h b ∨ (c.next h b).balanced = true)

instance (g : Bool) (c : Counters) (h : List UInt8) (b : UInt8) (bs : List UInt8) :
    Decidable (Fits g c h b bs) := inferInstanceAs (Decidable (_ ≤ _))

instance (h : List UInt8) (b : UInt8) : Decidable (Opens h b) :=
  inferInstanceAs (Decidable (_ ∧ _))

instance (g : Bool) (c : Counters) (h : List UInt8) (b : UInt8) (bs : List UInt8) :
    Decidable (Steady g c h b bs) := inferInstanceAs (Decidable (_ ∧ _))

instance Throughout.decidable {p : Test}
    [∀ g c h b bs, Decidable (p g c h b bs)] :
    ∀ g c h s, Decidable (Throughout d p g c h s)
  | _, _, _, [] => isTrue trivial
  | g, c, h, b :: bs =>
    have := Throughout.decidable (p := p) (g || d (h ++ [b]))
      (c.next h b) [] bs
    have := Throughout.decidable (p := p) g (c.next h b) (h ++ [b]) bs
    inferInstanceAs (Decidable (p g c h b bs ∧
      if Passed (c.next h b) (h ++ [b]) bs then
        Throughout d p (g || d (h ++ [b])) (c.next h b) [] bs
      else Throughout d p g (c.next h b) (h ++ [b]) bs))

variable {d} {p : Test}
  {c k : Counters} {h bs s t : List UInt8} {b : UInt8} {g : Bool}
  {conn : Connection Counters} {posted : List (List UInt8)} {inputs : List Input}

theorem feed_of_passed (hp : Passed (c.next h b) (h ++ [b]) bs) :
    feed c h (b :: bs) = ((h ++ [b]) :: (feed (c.next h b) [] bs).1,
      (feed (c.next h b) [] bs).2) :=
  if_pos hp

theorem feed_of_not (hp : ¬ Passed (c.next h b) (h ++ [b]) bs) :
    feed c h (b :: bs) = feed (c.next h b) (h ++ [b]) bs :=
  if_neg hp

theorem Throughout.and {q : Test}
    (hp : Throughout d p g c h s) (hq : Throughout d q g c h s) :
    Throughout d (fun g c h b bs => p g c h b bs ∧ q g c h b bs) g c h s := by
  induction s generalizing g c h with
  | nil => trivial
  | cons b bs ih =>
    obtain ⟨hp0, hp⟩ := hp
    obtain ⟨hq0, hq⟩ := hq
    refine ⟨⟨hp0, hq0⟩, ?_⟩
    split_ifs at hp hq ⊢ with hc <;> exact ih hp hq

theorem Throughout.mono {q : Test}
    (hp : Throughout d p g c h s)
    (hpq : ∀ {g c h b bs}, p g c h b bs → q g c h b bs) : Throughout d q g c h s := by
  induction s generalizing g c h with
  | nil => trivial
  | cons b bs ih =>
    refine ⟨hpq hp.1, ?_⟩
    have hrest := hp.2
    split_ifs at hrest ⊢ with hc <;> exact ih hrest

/-! ### A block -/

/-- **The scan of a block** stops where `feed` passes a message on, or takes the whole block. -/
theorem scan_spec (hne : s ≠ []) (hs : Throughout d Fits g c h s) :
    ∃ n c1, scan c (lastByte h) h.length s = (n, c1) ∧ 1 ≤ n ∧ n ≤ s.length ∧
      h.length + n ≤ maxMsgSize ∧ (Passed c1 (h ++ s.take n) (s.drop n) ∧
        feed c h s = ((h ++ s.take n) :: (feed c1 [] (s.drop n)).1, (feed c1 [] (s.drop n)).2) ∧
        (∃ g', Throughout d Fits g' c1 [] (s.drop n)) ∨
      n = s.length ∧ ¬ Passed c1 (h ++ s) [] ∧ feed c h s = ([], c1, h ++ s)) := by
  induction s generalizing g c h with
  | nil => exact absurd rfl hne
  | cons b bs ih =>
    obtain ⟨hfits, hs⟩ := hs
    have hlen : (h ++ [b]).length = h.length + 1 := length_append
    have hmax : h.length + 1 ≤ maxMsgSize := hlen ▸ hfits
    rw [scan]
    by_cases hp : Passed (c.next h b) (h ++ [b]) bs
    · -- the scan stops here, or the block ends
      rw [if_pos hp] at hs
      refine ⟨1, _, ?_, le_rfl, by simp, hmax, .inl ⟨hp, feed_of_passed hp, _, hs⟩⟩
      split_ifs with hstop
      · rfl
      · have hbs : bs = [] := (hp.2.resolve_left fun hfour => hstop ⟨by omega, hp.1⟩).1
        rw [hbs]
        rfl
    · rw [if_neg hp] at hs
      have hstop : ¬ (h.length > 2 ∧ (c.next h b).balanced = true) :=
        fun hstop => hp ⟨hstop.2, .inl (by omega)⟩
      simp only [if_neg hstop]
      rw [feed_of_not hp]
      cases bs with
      | nil => exact ⟨1, _, rfl, le_rfl, le_rfl, hmax, .inr ⟨rfl, hp, rfl⟩⟩
      | cons b' bs =>
        obtain ⟨n, c1, hscan, hpos, hle, hmax, hrest⟩ := ih (cons_ne_nil b' bs) hs
        rw [hlen, show lastByte (h ++ [b]) = b from getLastD_concat] at hscan
        have happ : ∀ l, (h ++ [b]) ++ l = h ++ b :: l := fun l => by simp
        simp only [happ] at hrest
        rw [hscan]
        refine ⟨n + 1, c1, rfl, by omega, by simpa using hle, by omega, ?_⟩
        rcases hrest with hrest | ⟨hn, hrest⟩
        · exact .inl hrest
        · exact .inr ⟨by simp [hn], hrest⟩

/-- The byte that `processBlock` starts from is the last one held. -/
theorem getD_eq_lastByte {data : List UInt8} (hdata : data.take h.length = h) :
    (if h.length ≠ 0 then data.getD (h.length - 1) 0 else 0) = lastByte h := by
  rcases eq_nil_or_concat' h with rfl | ⟨l, x, rfl⟩
  · rfl
  have hlen : (l ++ [x]).length = l.length + 1 := length_append
  have hsplit : data = (l ++ [x]) ++ data.drop (l ++ [x]).length := by
    conv_lhs => rw [← take_append_drop (l ++ [x]).length data, hdata]
  rw [hlen, if_pos (Nat.succ_ne_zero _), Nat.add_sub_cancel, hsplit,
    getD_append _ _ _ _ (by omega), lastByte, getLastD_concat]
  simp

/-- **The loop follows the scan without blocks.** -/
theorem follows : Follows processor fun c h rest ms c' h' =>
    feed c h rest = (ms, c', h') ∧ ∃ g, Throughout d Fits g c h rest where
  done := by
    rintro c h ms c' h' ⟨hfeed, -⟩
    simpa [feed, eq_comm] using hfeed
  copy := by
    rintro c h rest ms c' h' ⟨hfeed, g, hs⟩ hne data hdata
    obtain ⟨n, c1, hscan, hpos, hle, hmax, hrest⟩ := scan_spec hne hs
    have hlen : (h ++ rest.take n).length = h.length + n := by
      rw [length_append, length_take_of_le hle]
    refine ⟨n, c1, ?_, hpos, hle, hmax, fun data' _ => ?_⟩
    · change processBlock c rest data h.length = _
      unfold processBlock
      simp only [getD_eq_lastByte hdata, hscan]
    · change if decide (1 < h.length + n ∧ c1.balanced = true) = true then _ else _
      rcases hrest with ⟨⟨hbal, hmin⟩, hfeed', hfits⟩ | ⟨rfl, hp, hfeed'⟩
      · rw [if_pos (decide_eq_true ⟨by omega, hbal⟩)]
        have heq := hfeed'.symm.trans hfeed
        exact ⟨_, (congrArg Prod.fst heq).symm, Prod.ext rfl (Prod.mk.inj heq).2, hfits⟩
      · rw [take_length] at hlen ⊢
        rw [if_neg, drop_length]
        · exact ⟨hfeed'.symm.trans hfeed, false, trivial⟩
        · intro hcomp
          obtain ⟨hlt, hbal⟩ := of_decide_eq_true hcomp
          exact hp ⟨hbal, .inr ⟨rfl, by omega⟩⟩

/-- **What a connection does with a block**: what the scan without blocks does with it. -/
theorem block_gives (hs : conn.Sized)
    (hfits : Throughout d Fits g conn.state conn.held s) :
    (block conn s).Gives (feed conn.state conn.held s).1
      (feed conn.state conn.held s).2.1 (feed conn.state conn.held s).2.2 :=
  follows.blockLoop hs le_rfl ⟨rfl, g, hfits⟩

theorem run_block {ms : List (List UInt8)}
    (hg : (block conn s).Gives ms c h) (inputs : List Input) :
    run d conn posted (.block s :: inputs) =
      (run d (block conn s).conn (posted ++ ms)
        inputs).after ms (block conn s).trace := by
  rw [run]
  simp only [if_pos hg.finished, hg.msgs]

/-! ### Steady streams -/

theorem balanced_iff : c.balanced = true ↔ c = .zero := by
  rw [Counters.balanced, decide_eq_true_iff, Counters.zero, Counters.mk.injEq]

theorem unbalanced_iff : c.balanced = false ↔ 1 ≤ c.brackets + c.braces := by
  rw [Counters.balanced, decide_eq_false_iff_not]
  omega

/-- A byte that opens something adds one. -/
theorem Opens.next (ho : Opens h b) (c : Counters) :
    (c.next h b).brackets + (c.next h b).braces = c.brackets + c.braces + 1 := by
  obtain ⟨hprev, rfl | rfl⟩ := ho
  · simp only [Counters.next, Counters.count, if_neg hprev, if_true]
    omega
  · rw [Counters.next, Counters.count, if_neg hprev, if_neg (by decide), if_neg (by decide),
      if_pos rfl]
    rfl

/-- No byte takes more than one away. -/
theorem le_next (c : Counters) (h : List UInt8) (b : UInt8) :
    c.brackets + c.braces ≤ (c.next h b).brackets + (c.next h b).braces + 1 := by
  unfold Counters.next Counters.count
  split_ifs <;> grind

/-- A byte that opens nothing leaves nothing open if nothing is. -/
theorem zero_next (ho : ¬ Opens h b) : Counters.zero.next h b = .zero := by
  unfold Counters.next Counters.count
  split_ifs with hprev hl hr hl' hr'
  · rfl
  · exact absurd ⟨hprev, .inl hl⟩ ho
  · rfl
  · exact absurd ⟨hprev, .inr hl'⟩ ho
  · rfl
  · rfl

/-- How the counters `k` of a connection compare to those of the scan, `c`: they are equal, or have
been erased with something open, perhaps before the last bytes. -/
def Erased (g : Bool) (c k : Counters) : Prop :=
  k = c ∨ g = true ∧ c.balanced = false ∧ (k = .zero ∨ 2 ≤ c.brackets + c.braces)

/-- **A byte of a steady stream** makes the counters equal, or leaves something open in both. -/
theorem Erased.next (hk : Erased g c k) (hs : Steady g c h b bs) :
    k.next h b = c.next h b ∨
      (k.next h b).balanced = false ∧
        Erased g (c.next h b) (k.next h b) ∧
        (c.next h b).balanced = false := by
  rcases hk with rfl | ⟨hgone, hc, hk⟩
  · exact .inl rfl
  have hone := unbalanced_iff.1 hc
  by_cases ho : Opens h b
  · have hc' := ho.next c
    have hk' := ho.next k
    have hun : (c.next h b).balanced = false := unbalanced_iff.2 (by omega)
    exact .inr ⟨unbalanced_iff.2 (by omega), .inr ⟨hgone, hun, .inr (by omega)⟩, hun⟩
  · have hzero := balanced_iff.1 ((hs.2 hgone hc).resolve_left ho)
    have hle := le_next c h b
    rw [hzero] at hle ⊢
    rcases hk with rfl | hk
    · exact .inl (zero_next ho)
    · exact absurd hle (by simp only [Counters.zero]; omega)

/-- What is needed of a stream. -/
def Good (g : Bool) (c : Counters) (h : List UInt8) (b : UInt8) (bs : List UInt8) : Prop :=
  Fits g c h b bs ∧ Steady g c h b bs

/-- In a steady stream the end of a block makes no difference. -/
theorem Steady.passed_iff (hs : Steady g c h b (bs ++ t)) :
    Passed (c.next h b) (h ++ [b]) bs ↔
      Passed (c.next h b) (h ++ [b]) (bs ++ t) := by
  refine and_congr_right fun hbal => ⟨?_, ?_⟩
  · rintro (hfour | ⟨rfl, htwo⟩)
    · exact .inl hfour
    by_cases hfour : 4 ≤ (h ++ [b]).length
    · exact .inl hfour
    refine .inr ⟨by_contra fun hne => ?_, htwo⟩
    rw [hs.1 hne (by omega)] at hbal
    exact absurd hbal (by decide)
  · rintro (hfour | ⟨hnil, htwo⟩)
    · exact .inl hfour
    · exact .inr ⟨(append_eq_nil_iff.1 hnil).1, htwo⟩

/-- **A block of a steady stream**, with counters that may have been erased: the messages are those
of the stream, and what is left of it is steady. -/
theorem feed_block (hk : Erased g c k)
    (hall : Throughout d Good g c h (s ++ t)) :
    Throughout d Fits g k h s ∧ ∃ g' c',
      (feed c h (s ++ t)).1 = (feed k h s).1 ++ (feed c' (feed k h s).2.2 t).1 ∧
      Erased g' c' (feed k h s).2.1 ∧ Throughout d Good g' c' (feed k h s).2.2 t ∧
      g' = (g || (feed k h s).1.any d) := by
  induction s generalizing g c k h with
  | nil => exact ⟨trivial, g, c, rfl, hk, hall, by simp [feed]⟩
  | cons b bs ih =>
    obtain ⟨⟨hfits, hsteady⟩, hall⟩ := hall
    rw [cons_append]
    rcases hk.next hsteady with heq | ⟨hk1, hk', hc1⟩
    · by_cases hp : Passed (c.next h b) (h ++ [b]) bs
      · have hp' := hsteady.passed_iff.1 hp
        rw [append_eq, if_pos hp'] at hall
        obtain ⟨hin, g', c', hmsgs, hrel, hgood, hgone⟩ := ih (.inl rfl) hall
        rw [Throughout, heq, if_pos hp, feed_of_passed hp', feed_of_passed (heq ▸ hp), heq]
        refine ⟨⟨hfits, hin⟩, g', c', by rw [hmsgs, cons_append], hrel, hgood, ?_⟩
        rw [hgone, any_cons, Bool.or_assoc]
      · have hp' := hsteady.passed_iff.not.1 hp
        rw [append_eq, if_neg hp'] at hall
        rw [Throughout, heq, if_neg hp, feed_of_not hp', feed_of_not (heq ▸ hp), heq]
        obtain ⟨hin, hrest⟩ := ih (.inl rfl) hall
        exact ⟨⟨hfits, hin⟩, hrest⟩
    · have hpk : ¬ Passed (k.next h b) (h ++ [b]) bs := fun hp =>
        absurd (hk1.symm.trans hp.1) (by decide)
      have hpc : ¬ Passed (c.next h b) (h ++ [b]) (bs ++ t) := fun hp =>
        absurd (hc1.symm.trans hp.1) (by decide)
      rw [append_eq, if_neg hpc] at hall
      rw [Throughout, if_neg hpk, feed_of_not hpc, feed_of_not hpk]
      obtain ⟨hin, hrest⟩ := ih hk' hall
      exact ⟨⟨hfits, hin⟩, hrest⟩

/-- **A run over a steady stream** passes on what the scan without blocks does. -/
theorem run_steady (hs : conn.Sized) (hk : Erased g c conn.state)
    (hgone : posted.any d = true → g = true)
    (hall : Throughout d Good g c conn.held s) (hover : (blocksOf inputs).flatten = s) :
    (run d conn posted inputs).finished = true ∧
      (run d conn posted inputs).msgs = (feed c conn.held s).1 := by
  induction inputs generalizing conn posted c g s with
  | nil =>
    subst hover
    exact ⟨rfl, rfl⟩
  | cons input inputs ih =>
    cases input with
    | block bytes =>
      obtain rfl : bytes ++ (blocksOf inputs).flatten = s := hover
      obtain ⟨hfits, g', c', hmsgs, hk', hgood, hgone'⟩ := feed_block hk hall
      have hg := block_gives hs hfits
      have hany (h : (posted ++ (feed conn.state conn.held bytes).1).any d = true) :
          g' = true := by
        rw [any_append, Bool.or_eq_true] at h
        rw [hgone', Bool.or_eq_true]
        exact h.imp_left hgone
      obtain ⟨hfin, hrest⟩ := ih hg.sized (hg.state ▸ hk') hany (hg.held ▸ hgood) rfl
      rw [run_block hg]
      refine ⟨hfin, ?_⟩
      rw [hg.held] at hrest
      rw [hmsgs, ← hrest]
      rfl
    | handle =>
      cases posted with
      | nil => exact ih hs hk hgone hall hover
      | cons m posted =>
        have hgone1 (hany : posted.any d = true) : g = true :=
          hgone (by rw [any_cons, hany, Bool.or_true])
        rw [run, handleMessage]
        split_ifs with hm
        · have hs' : Connection.Sized { conn with state := Counters.zero } := hs
          refine ih hs' ?_ hgone1 hall hover
          cases hc : c.balanced with
          | true => exact .inl (balanced_iff.1 hc).symm
          | false => exact .inr ⟨hgone (by rw [any_cons, hm, Bool.true_or]), hc, .inl rfl⟩
        · exact ih hs hk hgone1 hall hover

/-! ### Other streams -/

/-- The scan asks for something. -/
theorem scan_pos (c : Counters) (prev : UInt8) (n : ℕ) (b : UInt8) (bs : List UInt8) :
    1 ≤ (scan c prev n (b :: bs)).1 := by
  rw [scan]
  split_ifs
  · exact le_rfl
  · exact Nat.le_add_left 1 _

/-- **What is passed on is longer than what is held.** -/
theorem longer_blockLoop {fuel : ℕ} {rest : List UInt8}
    (hs : conn.Sized) : (blockLoop processor fuel conn rest).conn.Sized ∧
      ((blockLoop processor fuel conn rest).msgs = [] →
        conn.currSize ≤ (blockLoop processor fuel conn rest).conn.currSize) ∧
      ∀ m ∈ (blockLoop processor fuel conn rest).msgs.head?, conn.currSize < m.length := by
  have hnone {n : ℕ} : ∀ m ∈ ([] : List (List UInt8)).head?, n < m.length := by simp
  induction fuel generalizing conn rest with
  | zero => cases rest <;> exact ⟨hs, fun _ => le_rfl, hnone⟩
  | succ fuel ih =>
    cases rest with
    | nil => exact ⟨hs, fun _ => le_rfl, hnone⟩
    | cons b bs =>
      obtain ⟨n, k, hcp, hn⟩ : ∃ (n : ℕ) (k : Counters), processor.processBlock conn.state (b :: bs)
          conn.recvbuf conn.currSize = ((n : ℤ), k) ∧ 1 ≤ n := ⟨_, _, rfl, scan_pos ..⟩
      rw [blockLoop, hcp]
      simp only [Int.toNat_natCast]
      split_ifs with hin hcomp
      all_goals try exact ⟨hs, fun _ => le_rfl, hnone⟩
      all_goals
        obtain ⟨-, hle, hmax⟩ := hin
        dsimp only at hle hmax
        have htake : ((b :: bs).take n).length = n := length_take_of_le (by omega)
        have hsized := hs.store (b := (b :: bs).take n) k (by rw [htake]; omega)
        rw [htake] at hsized
      · have hsz := (@ih ⟨_, 0, k⟩ ((b :: bs).drop n) ⟨hsized.1, Nat.zero_le _⟩).1
        refine ⟨hsz, (absurd · (cons_ne_nil _ _)), fun m hm => ?_⟩
        obtain rfl := Option.some.inj hm
        rw [length_take_of_le (hsized.1 ▸ hsized.2)]
        omega
      · obtain ⟨hsz, hheld, hlong⟩ := @ih _ ((b :: bs).drop n) hsized
        dsimp only at hheld hlong
        exact ⟨hsz, fun hnil => le_trans (by omega) (hheld hnil),
          fun m hm => lt_of_le_of_lt (by omega) (hlong m hm)⟩

theorem longer_run (hs : conn.Sized) : ∀ m ∈ (run d conn posted inputs).msgs.head?,
      conn.currSize < m.length := by
  induction inputs generalizing conn posted with
  | nil => exact nofun
  | cons input inputs ih =>
    cases input with
    | block bytes =>
      obtain ⟨hsz, hheld, hlong⟩ := @longer_blockLoop _ bytes.length bytes hs
      rw [run]
      split_ifs with hfin
      · intro m hm
        cases hmsgs : (block conn bytes).msgs with
        | nil =>
          rw [Outcome.after, hmsgs, nil_append] at hm
          exact (hheld hmsgs).trans_lt (ih hsz m hm)
        | cons m' ms =>
          rw [Outcome.after, hmsgs] at hm
          exact hlong m (by rw [show (blockLoop ..).msgs = _ from hmsgs]; exact hm)
      · exact hlong
    | handle =>
      cases posted with
      | nil => exact ih hs
      | cons m posted =>
        rw [run, handleMessage]
        split_ifs
        · exact @ih { conn with state := .zero } _ hs
        · exact ih hs

/-- The inputs bring the stream, in blocks of at most `MESSENGER_BUFFER_SIZE` bytes. -/
structure Over (s : List UInt8) (inputs : List Input) : Prop where
  bytes : (blocksOf inputs).flatten = s
  sizes : ∀ block ∈ blocksOf inputs, block.length ≤ bufferSize

theorem Over.block (h : Over s inputs) (ht : t.length ≤ bufferSize) :
    Over (t ++ s) (.block t :: inputs) :=
  ⟨congrArg (t ++ ·) h.bytes, forall_mem_cons.2 ⟨ht, h.sizes⟩⟩

theorem Over.byte (h : Over s inputs) :
    Over (b :: s) (.block [b] :: inputs) :=
  h.block (t := [b]) (show 1 ≤ bufferSize by decide)

theorem Over.handle (h : Over s inputs) (n : ℕ) :
    Over s (replicate n .handle ++ inputs) := by
  have hblocks : blocksOf (replicate n .handle ++ inputs) = blocksOf inputs := by
    rw [blocksOf, filterMap_append, filterMap_replicate_of_none rfl, nil_append, blocksOf]
  exact ⟨hblocks ▸ h.bytes, hblocks ▸ h.sizes⟩

theorem exists_over (s : List UInt8) : ∃ inputs, Over s inputs := by
  induction s with
  | nil => exact ⟨[], rfl, nofun⟩
  | cons b bs ih =>
    obtain ⟨inputs, h⟩ := ih
    exact ⟨_, h.byte⟩

/-- All events are handled. -/
theorem run_handle (inputs : List Input) :
    run d conn posted (replicate posted.length .handle ++ inputs) =
      run d (if posted.any d then { conn with state := .zero } else conn) []
        inputs := by
  induction posted generalizing conn with
  | nil => rfl
  | cons m posted ih =>
    rw [length_cons, replicate_succ, cons_append, run, ih, handleMessage, any_cons]
    cases d m <;> cases posted.any d <;> rfl

/-- What a block of one byte does. -/
theorem feed_singleton (c : Counters) (h : List UInt8) (b : UInt8) : feed c h [b] =
    if Passed (c.next h b) (h ++ [b]) [] then ([h ++ [b]], c.next h b, [])
    else ([], c.next h b, h ++ [b]) := rfl

theorem fits_singleton (hmax : (h ++ [b]).length ≤ maxMsgSize) (c : Counters) :
    Throughout d Fits g c h [b] := by
  refine ⟨hmax, ?_⟩
  split_ifs
  · trivial
  · trivial

/-- The messages of the runs over the stream from here on are all the same. -/
def Settled (d : List UInt8 → Bool) (conn : Connection Counters)
    (posted : List (List UInt8)) (s : List UInt8) : Prop :=
  ∀ inputs₁ inputs₂, Over s inputs₁ → Over s inputs₂ →
    (run d conn posted inputs₁).msgs = (run d conn posted inputs₂).msgs

section

variable (hs : conn.Sized) (hsame : Settled d conn posted (b :: bs))
include hs hsame

/-- **A block that ends in a short message**, and the same with one byte more. -/
theorem Settled.unbalanced (hne : bs ≠ [])
    (hlen : (conn.held ++ [b]).length = 2 ∨ (conn.held ++ [b]).length = 3) :
    (conn.state.next conn.held b).balanced = false := by
  by_contra hbal
  rw [Bool.not_eq_false] at hbal
  obtain ⟨b', bs', rfl⟩ := exists_cons_of_ne_nil hne
  obtain ⟨inputs, hover⟩ := exists_over bs'
  have hsmall : 4 ≤ maxMsgSize := by decide
  have hp1 : Passed (conn.state.next conn.held b) (conn.held ++ [b]) [] :=
    ⟨hbal, .inr ⟨rfl, by omega⟩⟩
  have hp2 : ¬ Passed (conn.state.next conn.held b) (conn.held ++ [b]) [b'] := by
    rintro ⟨-, hfour | ⟨hnil, -⟩⟩
    · omega
    · exact absurd hnil (cons_ne_nil _ _)
  have hone := block_gives (d := d) (g := false) hs
    (fits_singleton (b := b) (by omega) _)
  have htwo := block_gives (d := d) (g := false) hs (s := [b, b'])
    ⟨show _ ≤ _ by omega, by
      rw [if_neg hp2]
      exact fits_singleton (by rw [length_append, length_singleton]; omega) _⟩
  have heq := hsame _ _ hover.byte.byte
    (hover.block (t := [b, b']) (show 2 ≤ bufferSize by decide))
  rw [feed_singleton, if_pos hp1] at hone
  rw [feed_of_not hp2, feed_singleton] at htwo
  rw [run_block hone, run_block htwo] at heq
  -- the first message of the second run has a byte more
  have hlong : ∀ m ∈ (run d conn posted (.block [b, b'] :: inputs)).msgs.head?,
      (conn.held ++ [b]).length < m.length := by
    intro m hm
    rw [run_block htwo] at hm
    split_ifs at htwo hm
    · obtain rfl := Option.some.inj hm
      simp
    · have hheld := longer_run htwo.sized m hm
      rw [← htwo.sized.length_held, htwo.held] at hheld
      exact lt_trans (by simp) hheld
  rw [run_block htwo] at hlong
  rw [← heq] at hlong
  exact absurd (hlong _ rfl) (lt_irrefl _)

/-- **Counters that are erased** while something is open. -/
theorem Settled.opens_or_balanced (hgone : posted.any d = true)
    (hopen : conn.held = [] → conn.state.balanced = true) (hc : conn.state.balanced = false)
    (hmax : (conn.held ++ [b]).length ≤ maxMsgSize) :
    Opens conn.held b ∨
      (conn.state.next conn.held b).balanced = true := by
  by_contra hnot
  obtain ⟨ho, hbal⟩ := not_or.1 hnot
  obtain ⟨inputs, hover⟩ := exists_over bs
  have hover1 : Over (b :: bs) (.block [b] :: inputs) := hover.byte
  have hkeep := block_gives (d := d) (g := false) hs
    (fits_singleton hmax conn.state)
  have herase : (block { conn with state := .zero } [b]).Gives
      (feed .zero conn.held [b]).1 (feed .zero conn.held [b]).2.1 (feed .zero conn.held [b]).2.2 :=
    @block_gives d _ false { conn with state := .zero } hs (fits_singleton hmax .zero)
  have hheld : conn.held ≠ [] := fun hnil => absurd ((hopen hnil).symm.trans hc) (by decide)
  have hp : Passed (Counters.zero.next conn.held b) (conn.held ++ [b]) [] := by
    rw [zero_next ho]
    refine ⟨rfl, .inr ⟨rfl, ?_⟩⟩
    have := length_pos_of_ne_nil hheld
    rw [length_append, length_singleton]
    omega
  rw [feed_singleton, if_neg fun hp => hbal hp.1] at hkeep
  rw [feed_singleton, if_pos hp] at herase
  have heq := hsame _ _ (hover1.handle posted.length) hover1
  rw [run_handle, if_pos hgone, run_block herase, run_block hkeep] at heq
  have hlong := longer_run hkeep.sized (conn.held ++ [b]) (by
    rw [show (run ..).msgs = _ from heq.symm]
    rfl)
  rw [← hkeep.sized.length_held, hkeep.held] at hlong
  exact absurd hlong (lt_irrefl _)

end

/-- A byte that does not fit ends the run. -/
theorem not_finished_of_full
    (hs : conn.Sized) (hfull : ¬ (conn.held ++ [b]).length ≤ maxMsgSize) (inputs : List Input) :
    (run d conn posted (.block [b] :: inputs)).finished = false := by
  have hscan (prev : UInt8) (n : ℕ) : (scan conn.state prev n [b]).1 = 1 := by
    rw [scan]
    split_ifs <;> rfl
  have hblock : (block conn [b]).finished = false := by
    rw [length_append, hs.length_held, length_singleton] at hfull
    rw [block, Connection.processBlock, length_singleton, blockLoop, if_neg]
    rintro ⟨-, -, hmax⟩
    simp only [processor, processBlock, hscan] at hmax
    omega
  rw [run, if_neg (by rw [hblock]; decide)]
  exact hblock

/-- **A stream whose messages do not depend on the blocks is steady**, by induction on its bytes:
each is a block of its own, and those before it have left the connection where the scan is. -/
theorem Settled.good (hs : conn.Sized)
    (hgone : g = posted.any d)
    (hopen : conn.held = [] → conn.state.balanced = true)
    (hsame : Settled d conn posted s)
    (hfits : Throughout d Fits g conn.state conn.held s ∨
      ∀ inputs, Over s inputs → (run d conn posted inputs).finished = true) :
    Throughout d Good g conn.state conn.held s := by
  induction s generalizing conn posted g with
  | nil => trivial
  | cons b bs ih =>
    have hmax : (conn.held ++ [b]).length ≤ maxMsgSize := by
      rcases hfits with hfits | hfin
      · exact hfits.1
      · by_contra hfull
        obtain ⟨inputs, hover⟩ := exists_over bs
        exact absurd (hfin _ hover.byte)
          (by rw [not_finished_of_full hs hfull]; exact Bool.false_ne_true)
    have hsteady : Steady g conn.state conn.held b bs :=
      ⟨hsame.unbalanced hs, fun hg hc =>
        hsame.opens_or_balanced hs (hgone ▸ hg) hopen hc hmax⟩
    have hg := block_gives (d := d) (g := g) hs
      (fits_singleton hmax conn.state)
    -- the runs that begin with the byte as a block
    have hrun (inputs : List Input) := @run_block d _ _ _ _ posted _ hg inputs
    have hsame' : Settled d (block conn [b]).conn
        (posted ++ (feed conn.state conn.held [b]).1) bs := by
      intro inputs₁ inputs₂ h₁ h₂
      have heq := hsame _ _ h₁.byte h₂.byte
      rw [hrun, hrun] at heq
      exact append_cancel_left heq
    have hfin' : (∀ inputs, Over (b :: bs) inputs →
        (run d conn posted inputs).finished = true) → ∀ inputs, Over bs inputs →
          (run d (block conn [b]).conn
            (posted ++ (feed conn.state conn.held [b]).1) inputs).finished = true := by
      intro hfin inputs hover
      have hb := hfin _ hover.byte
      rwa [hrun] at hb
    refine ⟨⟨hmax, hsteady⟩, ?_⟩
    have hiff := @Steady.passed_iff _ _ [] bs _ _ hsteady
    rw [feed_singleton] at hg hsame' hfin'
    split_ifs with hp
    · rw [if_pos (hiff.2 hp)] at hg hsame' hfin'
      have hrest := ih hg.sized (g := g || d (conn.held ++ [b]))
        (by rw [hgone, any_append, any_cons, any_nil, Bool.or_false])
        (fun _ => hg.state ▸ hp.1) hsame' (hfits.imp (fun hf => by
          have hf := hf.2
          rw [if_pos hp] at hf
          rwa [hg.state, hg.held]) hfin')
      rwa [hg.state, hg.held] at hrest
    · rw [if_neg (hiff.not.2 hp)] at hg hsame' hfin'
      have hrest := ih hg.sized (g := g) (by rw [hgone, append_nil])
        (fun hnil => absurd (hg.held.symm.trans hnil) (by simp)) hsame' (hfits.imp (fun hf => by
          have hf := hf.2
          rw [if_neg hp] at hf
          rwa [hg.state, hg.held]) hfin')
      rwa [hg.state, hg.held] at hrest

variable (d)

/-- A connection that has received nothing, through the inputs. -/
def receives (junk : Vector UInt8 maxMsgSize) (inputs : List Input) : Outcome Counters :=
  run d (init junk .zero) [] inputs

/-- The stream leaves no choice. -/
def IsSteady (s : List UInt8) : Prop := Throughout d Steady false .zero [] s

instance (s : List UInt8) : Decidable (IsSteady d s) :=
  inferInstanceAs (Decidable (Throughout ..))

/-- **The messages do not depend on the blocks**, nor on when events are handled, exactly if the
stream is steady; as long as no message is longer than `MESSENGER_MAX_MSG_SIZE`. -/
theorem blocks_irrelevant (s : List UInt8)
    (hfits : Throughout d Fits false .zero [] s) :
    ((∀ junk₁ junk₂ inputs₁ inputs₂, Over s inputs₁ → Over s inputs₂ →
        (receives d junk₁ inputs₁).msgs = (receives d junk₂ inputs₂).msgs) ↔
      IsSteady d s) ∧
    (IsSteady d s → ∀ junk inputs, Over s inputs →
      (receives d junk inputs).finished = true) := by
  have hsteady (hs : IsSteady d s) (junk : Vector UInt8 maxMsgSize)
      (inputs : List Input) (hover : Over s inputs) :
      (receives d junk inputs).finished = true ∧
        (receives d junk inputs).msgs = (feed .zero [] s).1 :=
    run_steady (sized_init junk Counters.zero) (.inl rfl) nofun (hfits.and hs) hover.bytes
  refine ⟨⟨fun hsame => ?_, fun hs junk₁ junk₂ inputs₁ inputs₂ h₁ h₂ => ?_⟩,
    fun hs junk inputs hover => (hsteady hs junk inputs hover).1⟩
  · have junk : Vector UInt8 maxMsgSize := Vector.replicate maxMsgSize 0
    have hgood := Settled.good (sized_init junk Counters.zero) rfl (fun _ => rfl) (hsame junk junk)
      (.inl hfits)
    exact hgood.mono And.right
  · rw [(hsteady hs junk₁ inputs₁ h₁).2, (hsteady hs junk₂ inputs₂ h₂).2]

/-- The text `{"type":"disconnect"}`. -/
def disconnectText : List UInt8 := [0x7b, 0x22, 0x74, 0x79, 0x70, 0x65, 0x22, 0x3a, 0x22, 0x64,
  0x69, 0x73, 0x63, 0x6f, 0x6e, 0x6e, 0x65, 0x63, 0x74, 0x22, 0x7d]

/-- Two objects and two brackets, the second object cut in its middle or not at all; the first
event handled before that or never. -/
theorem blocks_irrelevant_two :
    (receives (· = disconnectText) (Vector.replicate maxMsgSize 0)
      [.block [0x7b, 0x22, 0x22, 0x3a, 0x31, 0x7d, 0x7b, 0x22, 0x22], .handle,
        .block ([0x3a, 0x5b, 0x5d, 0x7d] ++ disconnectText), .handle, .handle,
        .block [0x5b, 0x5b]]).msgs =
    (receives (· = disconnectText) (Vector.replicate maxMsgSize 0)
      [.block ([0x7b, 0x22, 0x22, 0x3a, 0x31, 0x7d, 0x7b, 0x22, 0x22, 0x3a, 0x5b, 0x5d, 0x7d] ++
        disconnectText ++ [0x5b, 0x5b])]).msgs :=
  (blocks_irrelevant (· = disconnectText)
    ([0x7b, 0x22, 0x22, 0x3a, 0x31, 0x7d, 0x7b, 0x22, 0x22, 0x3a, 0x5b, 0x5d, 0x7d] ++
      disconnectText ++ [0x5b, 0x5b]) (by decide +kernel)).1.2 (by decide +kernel) _ _ _ _
    ⟨rfl, by decide⟩ ⟨rfl, by decide⟩

/-- **Two completion tests, and counters that are erased.**  Two objects of three bytes, `{ }`, are
one message when they come in one block and two messages when they come in two.  Behind a message
that disconnects, the object `{"":[1]}` is one message or not, as the event is handled after it or
in its middle. -/
theorem short_objects_depend_on_blocks :
    (receives (· = disconnectText) (Vector.replicate maxMsgSize 0)
      [.block [0x7b, 0x20, 0x7d, 0x7b, 0x20, 0x7d]]).msgs = [[0x7b, 0x20, 0x7d, 0x7b, 0x20, 0x7d]] ∧
    (receives (· = disconnectText) (Vector.replicate maxMsgSize 0)
      [.block [0x7b, 0x20, 0x7d], .block [0x7b, 0x20, 0x7d]]).msgs =
        [[0x7b, 0x20, 0x7d], [0x7b, 0x20, 0x7d]] ∧
    (receives (· = disconnectText) (Vector.replicate maxMsgSize 0)
      [.block (disconnectText ++ [0x7b, 0x22, 0x22, 0x3a, 0x5b]), .block [0x31, 0x5d, 0x7d]]).msgs =
        [disconnectText, [0x7b, 0x22, 0x22, 0x3a, 0x5b, 0x31, 0x5d, 0x7d]] ∧
    (receives (· = disconnectText) (Vector.replicate maxMsgSize 0)
      [.block (disconnectText ++ [0x7b, 0x22, 0x22, 0x3a, 0x5b]), .handle,
        .block [0x31, 0x5d, 0x7d]]).msgs =
        [disconnectText, [0x7b, 0x22, 0x22, 0x3a, 0x5b, 0x31], [0x5d, 0x7d]] := by
  decide +kernel

end NoxClassic.Messenger.Json
