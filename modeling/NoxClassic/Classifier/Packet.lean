/-
# Rules over packets

`Packet_expr` (`src/include/expr.hh`, `src/lib/expr.cc`): an expression gives values to
some of fourteen fields of a packet, and the others are wildcards.  The classifier is
asked for the rules of an expression or of a flow.

An expression matches a rule that has a value wherever the expression has one, the same.
A flow has a value of every field but `AP_DST` and the groups; matching it with a rule that
has a value of one of these stops the program, and so does asking it for `AP_DST`.

Every lookup with an expression is a scan of the live rules.  So is a lookup with a flow
that no live rule and no node of the tree stops.  A node may be split on `AP_DST` when no
live rule has a value of it: the rules are deleted and the node stays
(`split_outlives_rules`).
-/

import NoxClassic.Classifier.Refine

namespace NoxClassic.Classifier

open Classifier.Expr Lib Option

/-- `Packet_expr::Expr_field`. -/
inductive ExprField where
  | apSrc | apDst | dlVlan | dlVlanPcp | dlType | dlSrc | dlDst | nwSrc | nwDst | nwProto
  | tpSrc | tpDst | groupSrc | groupDst
  deriving DecidableEq, Repr

variable {x : ExprField} {f : ℕ}

namespace ExprField

/-- The fields, by number. -/
def all : List ExprField :=
  [apSrc, apDst, dlVlan, dlVlanPcp, dlType, dlSrc, dlDst, nwSrc, nwDst, nwProto, tpSrc, tpDst,
    groupSrc, groupDst]

/-- The number of a field. -/
def toNat : ExprField → ℕ
  | apSrc => 0
  | apDst => 1
  | dlVlan => 2
  | dlVlanPcp => 3
  | dlType => 4
  | dlSrc => 5
  | dlDst => 6
  | nwSrc => 7
  | nwDst => 8
  | nwProto => 9
  | tpSrc => 10
  | tpDst => 11
  | groupSrc => 12
  | groupDst => 13

theorem mem_all (x : ExprField) : x ∈ all := by
  cases x <;> decide

theorem all_getElem? (x : ExprField) : all[x.toNat]? = some x := by
  cases x <;> rfl

theorem toNat_injective {y : ExprField} (h : x.toNat = y.toNat) : x = y := by
  have hx := all_getElem? x
  rw [h, all_getElem?] at hx
  exact (some.inj hx).symm

/-- A field is found by its number. -/
theorem toNat_of_getElem? {n : ℕ} (h : all[n]? = some x) : x.toNat = n := by
  have hall : ∀ m : Fin 14, (all.get m).toNat = m.1 := by decide
  obtain ⟨hn, rfl⟩ := List.getElem?_eq_some_iff.1 h
  exact hall ⟨n, hn⟩

end ExprField

/-- An Ethernet address: its octets, the first lowest. -/
abbrev Octets := BitVec 48

/-- The octets from the third on, as a word. -/
def Octets.word (o : Octets) : Value := o.extractLsb' 16 32

/-- A `Packet_expr`. -/
structure PacketExpr where
  apSrc : BitVec 16
  apDst : BitVec 16
  dlVlan : BitVec 16
  dlVlanPcp : BitVec 16
  dlProto : BitVec 16
  dlSrc : Octets
  dlDst : Octets
  nwSrc : BitVec 32
  nwDst : BitVec 32
  tpSrc : BitVec 16
  tpDst : BitVec 16
  groupSrc : BitVec 32
  groupDst : BitVec 32
  wildcards : Path
  nwProto : BitVec 8

/-- The fields of a `Flow` that are classified. -/
structure Flow where
  inPort : BitVec 16
  dlVlan : BitVec 16
  dlVlanPcp : BitVec 8
  dlSrc : Octets
  dlDst : Octets
  dlType : BitVec 16
  nwSrc : BitVec 32
  nwDst : BitVec 32
  nwProto : BitVec 8
  tpSrc : BitVec 16
  tpDst : BitVec 16

namespace PacketExpr

open ExprField

/-- The value of a field, as `Packet_expr::get_field` reads it. -/
def get (e : PacketExpr) : ExprField → Value
  | .apSrc => e.apSrc.setWidth 32
  | .apDst => e.apDst.setWidth 32
  | .dlVlan => e.dlVlan.setWidth 32
  | .dlVlanPcp => e.dlVlanPcp.setWidth 32
  | .dlType => e.dlProto.setWidth 32
  | .dlSrc => e.dlSrc.word
  | .dlDst => e.dlDst.word
  | .nwSrc => e.nwSrc
  | .nwDst => e.nwDst
  | .nwProto => e.nwProto.setWidth 32
  | .tpSrc => e.tpSrc.setWidth 32
  | .tpDst => e.tpDst.setWidth 32
  | .groupSrc => e.groupSrc
  | .groupDst => e.groupDst

/-- `Packet_expr::is_wildcard`. -/
def isWildcard (e : PacketExpr) (field : ℕ) : Bool := e.wildcards &&& masks field ≠ 0

/-- `Packet_expr::set_field`, with the two words of the value. -/
def setField (e : PacketExpr) (field : ExprField) (v w : BitVec 32) : PacketExpr :=
  let octets : Octets := (w.setWidth 16 ++ v).setWidth 48
  let e := match field with
    | .apSrc => { e with apSrc := v.setWidth 16 }
    | .apDst => { e with apDst := v.setWidth 16 }
    | .dlVlan => { e with dlVlan := v.setWidth 16 }
    | .dlVlanPcp => { e with dlVlanPcp := v.setWidth 16 }
    | .dlType => { e with dlProto := v.setWidth 16 }
    | .dlSrc => { e with dlSrc := octets }
    | .dlDst => { e with dlDst := octets }
    | .nwSrc => { e with nwSrc := v }
    | .nwDst => { e with nwDst := v }
    | .nwProto => { e with nwProto := v.setWidth 8 }
    | .tpSrc => { e with tpSrc := v.setWidth 16 }
    | .tpDst => { e with tpDst := v.setWidth 16 }
    | .groupSrc => { e with groupSrc := v }
    | .groupDst => { e with groupDst := v }
  { e with wildcards := e.wildcards &&& ~~~masks field.toNat }

instance : Expr PacketExpr where
  numFields := 13
  numFields_le := by decide
  leafThreshold := 1
  splittable e path := ~~~path &&& ~~~e.wildcards ≠ 0
  getField e field :=
    if masks field &&& e.wildcards ≠ 0 then none else (all[field]?).map e.get

/-- The comparison of a field in `matches`, with another expression. -/
def same (e q : PacketExpr) : ExprField → Bool
  | .apSrc => e.apSrc = q.apSrc
  | .apDst => e.apDst = q.apDst
  | .dlVlan => e.dlVlan = q.dlVlan
  | .dlVlanPcp => e.dlVlanPcp = q.dlVlanPcp
  | .dlType => e.dlProto = q.dlProto
  | .dlSrc => e.dlSrc = q.dlSrc
  | .dlDst => e.dlDst = q.dlDst
  | .nwSrc => e.nwSrc = q.nwSrc
  | .nwDst => e.nwDst = q.nwDst
  | .nwProto => e.nwProto = q.nwProto
  | .tpSrc => e.tpSrc = q.tpSrc
  | .tpDst => e.tpDst = q.tpDst
  | .groupSrc => e.groupSrc = q.groupSrc
  | .groupDst => e.groupDst = q.groupDst

/-- `matches(rule_id, expr, to_match)`. -/
def matchesExpr (e q : PacketExpr) : Bool :=
  if e.wildcards ||| q.wildcards ≠ q.wildcards then false
  else all.all fun x => q.isWildcard x.toNat || e.same q x

/-- The lookup with an expression: `get_field` of the expression, at the first index. -/
def query (q : PacketExpr) : Query PacketExpr where
  getField field idx :=
    if idx ≠ 0 then .absent
    else match Expr.getField q field with
      | some v => .value v
      | none => .absent
  matchesRule _ e := some (e.matchesExpr q)
  limit := 1
  getField_limit field v := by simp

end PacketExpr

namespace Flow

open ExprField

/-- `get_field<Packet_expr, Flow>` at the first index. -/
def get (flow : Flow) : ExprField → Answer
  | .apSrc => .value (flow.inPort.setWidth 32)
  | .apDst => .abort
  | .dlVlan => .value (flow.dlVlan.setWidth 32)
  | .dlVlanPcp => .value (flow.dlVlanPcp.setWidth 32)
  | .dlType => .value (flow.dlType.setWidth 32)
  | .dlSrc => .value flow.dlSrc.word
  | .dlDst => .value flow.dlDst.word
  | .nwSrc => .value flow.nwSrc
  | .nwDst => .value flow.nwDst
  | .nwProto => .value (flow.nwProto.setWidth 32)
  | .tpSrc => .value (flow.tpSrc.setWidth 32)
  | .tpDst => .value (flow.tpDst.setWidth 32)
  | .groupSrc | .groupDst => .absent

/-- The comparison of a field in `matches`, with a flow.  Of the fields that a flow does not have
there is none. -/
def same (e : PacketExpr) (flow : Flow) : ExprField → Bool
  | .apSrc => e.apSrc = flow.inPort
  | .dlVlan => e.dlVlan = flow.dlVlan
  | .dlVlanPcp => e.dlVlanPcp = flow.dlVlanPcp.setWidth 16
  | .dlType => e.dlProto = flow.dlType
  | .dlSrc => e.dlSrc = flow.dlSrc
  | .dlDst => e.dlDst = flow.dlDst
  | .nwSrc => e.nwSrc = flow.nwSrc
  | .nwDst => e.nwDst = flow.nwDst
  | .nwProto => e.nwProto = flow.nwProto
  | .tpSrc => e.tpSrc = flow.tpSrc
  | .tpDst => e.tpDst = flow.tpDst
  | .apDst | .groupSrc | .groupDst => true

/-- The fields that a flow does not have, as a mask. -/
def missing : Path := masks apDst.toNat ||| masks groupSrc.toNat ||| masks groupDst.toNat

/-- `matches(rule_id, expr, flow)`, with its assertion. -/
def matchesFlow (e : PacketExpr) (flow : Flow) : Option Bool :=
  if ~~~e.wildcards &&& missing ≠ 0 then none
  else some (all.all fun x => e.isWildcard x.toNat || same e flow x)

/-- The lookup with a flow. -/
def query (flow : Flow) : Query PacketExpr where
  getField field idx :=
    if idx ≠ 0 then .absent
    else match all[field]? with
      | some x => flow.get x
      | none => .absent
  matchesRule _ e := matchesFlow e flow
  limit := 1
  getField_limit field v := by simp

end Flow

/-! ### What a match says -/

variable {e : PacketExpr}

/-- A value that a rule has of a field: the field has a name and is no wildcard. -/
theorem getField_packetExpr {v : Value} (h : getField e f = some v) :
    ∃ x : ExprField, x.toNat = f ∧ e.isWildcard x.toNat = false ∧ v = e.get x := by
  simp only [getField] at h
  split at h
  · cases h
  next hwild =>
  obtain ⟨x, hx, rfl⟩ := map_eq_some_iff.1 h
  have hn := ExprField.toNat_of_getElem? hx
  refine ⟨x, hn, ?_, rfl⟩
  rw [hn, PacketExpr.isWildcard, BitVec.and_comm]
  simpa using hwild

namespace PacketExpr

variable {q : PacketExpr}

theorem get_eq_of_same (h : e.same q x = true) : e.get x = q.get x := by
  cases x <;> simp only [same, decide_eq_true_eq] at h <;> simp only [get, h]

/-- An expression that matches has its values. -/
theorem get_eq_of_matchesExpr (h : e.matchesExpr q = true)
    (hx : q.isWildcard x.toNat = false) : e.get x = q.get x := by
  unfold matchesExpr at h
  split at h
  · cases h
  · have hall := List.all_eq_true.1 h x x.mem_all
    rw [hx, Bool.false_or] at hall
    exact get_eq_of_same hall

theorem values_query (q : PacketExpr) (f : ℕ) :
    (query q).values f = some (getField q f).toList := by
  refine values_of_list (fun idx => ?_) ?_
  · cases idx with
    | zero => cases hv : getField q f <;> simp [query, hv]
    | succ idx => cases hv : getField q f <;> simp [query]
  · cases getField q f <;> simp [query]

/-- An expression asks for each rule that it matches once. -/
theorem asked_query {α : Type} (q : PacketExpr) (r : Rule PacketExpr α)
    (h : hit (query q) r = true) (F : ℕ → Prop) : Asked F (query q) r := by
  intro f v vs _ hv hvs
  rw [values_query, some.injEq] at hvs
  subst hvs
  cases hq : getField q f with
  | none => exact .inl rfl
  | some w =>
    obtain ⟨x, rfl, -, rfl⟩ := getField_packetExpr hv
    obtain ⟨y, hxy, hwild, rfl⟩ := getField_packetExpr hq
    obtain rfl := ExprField.toNat_injective hxy
    have hmatch : r.expr.matchesExpr q = true := by simpa [hit, query] using h
    rw [get_eq_of_matchesExpr hmatch hwild]
    exact .inr (List.count_singleton_self)

end PacketExpr

namespace Flow

/-- The value of a field that is compared is the value that the tree asks for. -/
theorem get_eq_of_same {flow : Flow} {w : Value}
    (h : same e flow x = true) (hw : flow.get x = .value w) : e.get x = w := by
  cases x <;> simp only [same, decide_eq_true_eq, get, Answer.value.injEq, reduceCtorEq] at h hw <;>
    subst hw <;> simp only [PacketExpr.get, h]
  -- the priority has eight bits in a flow and sixteen in an expression
  refine BitVec.eq_of_toNat_eq ?_
  rw [BitVec.toNat_setWidth, BitVec.toNat_setWidth, BitVec.toNat_setWidth]
  omega

/-- The values of a field that is not `AP_DST`: one, or none of the groups. -/
theorem values_query (flow : Flow) {vs : List Value}
    (h : ((query flow).getField f 0 = .absent ∧ vs = []) ∨
      ∃ v, (query flow).getField f 0 = .value v ∧ vs = [v]) : (query flow).values f = some vs := by
  refine values_of_list (fun idx => ?_) ?_
  · rcases h with ⟨h, rfl⟩ | ⟨v, h, rfl⟩
    all_goals
      cases idx with
      | zero => exact h
      | succ idx => rfl
  · rcases h with ⟨-, rfl⟩ | ⟨v, -, rfl⟩
    · exact Nat.zero_le _
    · exact Nat.le_refl 1

theorem getField_query (flow : Flow) (x : ExprField) :
    (query flow).getField x.toNat 0 = flow.get x := by
  simp only [query, ne_eq, not_true_eq_false, if_false, ExprField.all_getElem?]

/-- A flow asks for each rule that it matches once. -/
theorem asked_query {α : Type} (flow : Flow) (r : Rule PacketExpr α)
    (h : hit (query flow) r = true) (F : ℕ → Prop) : Asked F (query flow) r := by
  intro f v vs _ hv hvs
  obtain ⟨x, rfl, hwild, rfl⟩ := getField_packetExpr hv
  have hmatch : matchesFlow r.expr flow = some true := by simpa [hit, query] using h
  unfold matchesFlow at hmatch
  split at hmatch
  · cases hmatch
  have hsame := List.all_eq_true.1 (some.inj hmatch) x x.mem_all
  rw [hwild, Bool.false_or] at hsame
  have hget := flow.getField_query x
  cases hx : flow.get x with
  | value w =>
    rw [values_query flow (.inr ⟨w, hget.trans hx, rfl⟩), some.injEq] at hvs
    rw [get_eq_of_same hsame hx, ← hvs]
    exact .inr List.count_singleton_self
  | absent =>
    rw [values_query flow (.inl ⟨hget.trans hx, rfl⟩), some.injEq] at hvs
    exact .inl hvs.symm
  | abort =>
    rw [Query.values, valuesFrom, hget.trans hx] at hvs
    cases hvs

/-- The rule has no value of a field that a flow does not have. -/
def Fits (e : PacketExpr) : Prop :=
  ∀ x ∈ [ExprField.apDst, .groupSrc, .groupDst], e.isWildcard x.toNat = true

theorem and_masks_eq_zero {w : Path} {i : ℕ} (hi : i < 32) :
    ~~~w &&& masks i = 0 ↔ w &&& masks i ≠ 0 := by
  have hbit : ∀ u : Path, u &&& masks i = 0 ↔ u.getLsbD i = false := by
    intro u
    constructor <;> intro h
    · have hu := congrArg (fun b : BitVec 32 => b.getLsbD i) h
      simpa [masks, hi] using hu
    refine BitVec.eq_of_getLsbD_eq fun j hj => ?_
    by_cases hij : j = i
    · subst hij
      simp [h]
    · have hlt : j < i ∨ i < j := by omega
      rcases hlt with hlt | hlt
      · simp [masks, hlt]
      · have hne : ¬ j - i = 0 := by omega
        simp [masks, hne]
  rw [hbit, ne_eq, hbit]
  simp [hi]

/-- The assertion of `matches` holds of such rules. -/
theorem matchesFlow_isSome (flow : Flow) (h : Fits e) : (matchesFlow e flow).isSome = true := by
  have hmask : ∀ x ∈ [ExprField.apDst, .groupSrc, .groupDst],
      ~~~e.wildcards &&& masks x.toNat = 0 := by
    intro x hx
    have hlt : x.toNat < 32 := by cases x <;> decide
    exact (and_masks_eq_zero hlt).2 (by simpa [PacketExpr.isWildcard] using h x hx)
  have hzero : ~~~e.wildcards &&& missing = 0 := by
    rw [missing, BitVec.and_or_distrib_left, BitVec.and_or_distrib_left, hmask .apDst (by decide),
      hmask .groupSrc (by decide), hmask .groupDst (by decide)]
    rfl
  rw [matchesFlow, if_neg (by simpa using hzero)]
  rfl

/-- A flow can be asked for every field but `AP_DST`. -/
theorem values_isSome (flow : Flow) (h : f ≠ ExprField.apDst.toNat) :
    ((query flow).values f).isSome = true := by
  cases hf : (query flow).getField f 0 with
  | value v => rw [values_query flow (.inr ⟨v, hf, rfl⟩), isSome_some]
  | absent => rw [values_query flow (.inl ⟨hf, rfl⟩), isSome_some]
  | abort =>
    simp only [query, ne_eq, not_true_eq_false, if_false] at hf
    cases hx : ExprField.all[f]? with
    | none => simp [hx] at hf
    | some x =>
      have hnat := ExprField.toNat_of_getElem? hx
      cases x with
      | apDst => exact absurd hnat.symm h
      | _ => simp [hx, get] at hf

end Flow

/-! ### Lookups are scans -/

/-- What the classifier of packets is asked with. -/
inductive Data where
  | ofExpr (q : PacketExpr)
  | ofFlow (flow : Flow)

/-- The lookup with the data. -/
def Data.query : Data → Query PacketExpr
  | .ofExpr q => q.query
  | .ofFlow flow => flow.query

theorem Data.asked_query {α : Type} (d : Data) (r : Rule PacketExpr α)
    (h : hit d.query r = true) (F : ℕ → Prop) : Asked F d.query r := by
  cases d with
  | ofExpr q => exact PacketExpr.asked_query q r h F
  | ofFlow flow => exact Flow.asked_query flow r h F

/-- A new classifier: a leaf, or split on a field with some buckets. -/
def start {α : Type} : Option (ℕ × ℕ) → Classifier PacketExpr α
  | none => init
  | some (field, buckets) => initSplit field buckets

theorem refines_start {α : Type} (first : Option (ℕ × ℕ)) :
    Refines (fun _ => True) (start first, ([] : List (Rule PacketExpr α))) := by
  cases first with
  | none => exact refines_init
  | some s => exact refines_initSplit trivial s.2

section Packets

variable {α : Type} {F : ℕ → Prop} {ops : List (Op PacketExpr α)}

/-- Every operation of packets asks for each rule that matches once. -/
theorem asks_of_data (hdata : ∀ q, Op.deleteRules q ∈ ops → ∃ d : Data, q = d.query) :
    ∀ op ∈ ops, op.Asks F := by
  intro op hop
  cases op with
  | deleteRules q =>
    obtain ⟨d, rfl⟩ := hdata q hop
    exact fun r hr => d.asked_query r hr F
  | _ => trivial

/-- No history whose deletions are by expressions stops the program. -/
theorem run_isSome (hF : ∀ f < numFields PacketExpr, F f)
    {s : Classifier PacketExpr α × List (Rule PacketExpr α)} (h : Refines F s)
    (hdata : ∀ q, Op.deleteRules q ∈ ops → ∃ e : PacketExpr, q = e.query) :
    ∃ c live, run track s ops = some (c, live) := by
  induction ops generalizing s with
  | nil => exact ⟨s.1, s.2, rfl⟩
  | cons op ops ih =>
    have hall : ∀ q, Op.deleteRules q ∈ op :: ops → ∃ d : Data, q = d.query := fun q hq => by
      obtain ⟨e, rfl⟩ := hdata q hq
      exact ⟨.ofExpr e, rfl⟩
    have hasks : op.Asks F := asks_of_data hall op List.mem_cons_self
    cases hstep : track s op with
    | none =>
      obtain ⟨q, rfl, hstop⟩ := h.track_none hasks hstep
      obtain ⟨e, rfl⟩ := hdata q List.mem_cons_self
      rcases hstop with ⟨f, -, hf⟩ | ⟨r, -, hr⟩
      · rw [PacketExpr.values_query] at hf
        cases hf
      · cases hr
    | some t =>
      obtain ⟨c, live, hrun⟩ := ih (h.track hF hasks hstep)
        fun q hq => hdata q (List.mem_cons_of_mem _ hq)
      exact ⟨c, live, run_cons_eq_some.2 ⟨t, hstep, hrun⟩⟩

/-- **A lookup of packets is a scan of the live rules**, whatever operations made the tree: it gives
the live rules that match, each once, by priority.  A history whose deletions are by
expressions never stops, nor does a lookup with an expression.  A lookup with a flow, where
no live rule has a value of a field that flows do not have, stops only if a node of the
tree is split on `AP_DST`. -/
theorem packet_lookup_is_scan (first : Option (ℕ × ℕ))
    (hdata : ∀ q, Op.deleteRules q ∈ ops → ∃ d : Data, q = d.query) :
    ((∀ q, Op.deleteRules q ∈ ops → ∃ e : PacketExpr, q = e.query) →
      ∃ c live, run track (start first, []) ops = some (c, live)) ∧
    ∀ c live, run track (start first, []) ops = some (c, live) →
      (∀ e : PacketExpr, ∃ l, lookup e.query c.root = some l ∧
        l.Perm (live.filter fun r => r.expr.matchesExpr e) ∧ (l.map Rule.id).Nodup ∧ Sorted l) ∧
      ∀ flow : Flow, (∀ r ∈ live, Flow.Fits r.expr) →
        (lookup flow.query c.root = none ∧ ExprField.apDst.toNat ∈ c.root.fields) ∨
        ∃ l, lookup flow.query c.root = some l ∧
          l.Perm (live.filter fun r => flow.matchesFlow r.expr = some true) ∧
          (l.map Rule.id).Nodup ∧ Sorted l := by
  refine ⟨run_isSome (fun _ _ => trivial) (refines_start first), fun c live hrun => ?_⟩
  have href := (refines_start first).run (fun _ _ => trivial) (asks_of_data hdata) hrun
  refine ⟨fun e => ?_, fun flow hfits => ?_⟩
  · rcases href.lookup fun r _ h => e.asked_query r h _ with ⟨-, ⟨f, -, hf⟩ | ⟨r, -, hr⟩⟩ | hl
    · rw [PacketExpr.values_query] at hf
      cases hf
    · cases hr
    · obtain ⟨l, hl, hperm, hnd, hs⟩ := hl
      refine ⟨l, hl, hperm.trans (.of_eq (List.filter_congr fun r _ => ?_)), hnd, hs⟩
      simp [hit, PacketExpr.query]
  · rcases href.lookup fun r _ h => flow.asked_query r h _ with
      ⟨hnone, ⟨f, hf, hvs⟩ | ⟨r, hr, hmatch⟩⟩ | hl
    · by_cases heq : f = ExprField.apDst.toNat
      · exact .inl ⟨hnone, heq ▸ hf⟩
      · have hsome := flow.values_isSome heq
        rw [hvs] at hsome
        cases hsome
    · have hsome := flow.matchesFlow_isSome (hfits r hr)
      rw [show flow.matchesFlow r.expr = none from hmatch] at hsome
      cases hsome
    · obtain ⟨l, hl, hperm, hnd, hs⟩ := hl
      exact .inr ⟨l, hl, hperm, hnd, hs⟩

end Packets

/-- An expression without values. -/
def PacketExpr.wild : PacketExpr := ⟨0, 0, 0, 0, 0, 0, 0, 0, 0, 0, 0, 0, 0, ~~~0, 0⟩

/-- A flow of zeros. -/
def Flow.zero : Flow := ⟨0, 0, 0, 0, 0, 0, 0, 0, 0, 0, 0⟩

/-- Two rules with values of a field, and the tree built. -/
def twoRules (x : ExprField) : List (Op PacketExpr Unit) :=
  [.addRule 2 (PacketExpr.wild.setField x 0 0) (), .addRule 1 (PacketExpr.wild.setField x 1 0) (),
    .build]

/-- **A split outlives its rules.**  Two rules have values of `AP_DST` and the tree is split on it.
The rules are deleted, no rule is live, and a lookup with a flow stops the program. -/
theorem split_outlives_rules :
    (run track (start none, []) (twoRules .apDst ++ [.deleteRule 1, .deleteRule 2])).map
      (fun s => (s.2.length, s.1.root.fields, (lookup Flow.zero.query s.1.root).isNone)) =
        some (0, [ExprField.apDst.toNat], true) := by
  decide +kernel

/-- The hypotheses of `packet_lookup_is_scan` are satisfiable: two rules on the input port, the tree
built, and a flow. -/
theorem packet_lookup_is_scan_two :
    ∃ c live, run track (start none, []) (twoRules .apSrc) = some (c, live) ∧
      live.length = 2 ∧ c.root.fields = [ExprField.apSrc.toNat] ∧
      ∃ l, lookup Flow.zero.query c.root = some l ∧
        l.Perm (live.filter fun r => Flow.zero.matchesFlow r.expr = some true) ∧
        (l.map Rule.id).Nodup ∧ Sorted l := by
  have hno : ∀ q, Op.deleteRules q ∉ twoRules .apSrc := fun q hq => by simp [twoRules] at hq
  obtain ⟨hsome, hscan⟩ := packet_lookup_is_scan none fun q hq => absurd hq (hno q)
  obtain ⟨c, live, hrun⟩ := hsome fun q hq => absurd hq (hno q)
  have hvalues : (run track (start none, []) (twoRules .apSrc)).map
      (fun s => (s.2.length, s.1.root.fields, s.2.all fun r => r.expr.wildcards = ~~~1#32)) =
        some (2, [ExprField.apSrc.toNat], true) := by
    decide +kernel
  rw [hrun, map_some, some.injEq, Prod.mk.injEq, Prod.mk.injEq] at hvalues
  obtain ⟨hlen, hfields, hall⟩ := hvalues
  refine ⟨c, live, hrun, hlen, hfields, ?_⟩
  refine ((hscan c live hrun).2 Flow.zero fun r hr x hx => ?_).resolve_left fun hstop => ?_
  · have hw : r.expr.wildcards = ~~~1#32 := by simpa using List.all_eq_true.1 hall r hr
    rw [PacketExpr.isWildcard, hw]
    revert x
    decide
  · exact absurd (hfields ▸ hstop.2) (by decide)

end NoxClassic.Classifier
