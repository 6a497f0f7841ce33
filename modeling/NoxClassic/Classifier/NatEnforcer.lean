/-
# Rules of the NAT enforcer

`NAT_enforcer` (`src/nox/netapps/routing/nat_enforcer.cc`) is a classifier whose rules are
lists of predicates (`Flow_expr`, `netapps/authenticator/flow_util.cc`), and whose data is
a flow with the groups of its addresses (`NAT_data`).

The tree asks a rule for the value of its first predicate on a field (`Flow_expr::get_field`)
and the data for its values (`get_field<Flow_expr, NAT_data>`); a lookup finds a rule that
matches if the two agree.  They differ in three places (`nat_tree_differs`):

- the data gives its source groups for the destination groups;
- the tree folds the 64 bits of a value, and `matches` cuts off the upper half;
- a group of both addresses is a value twice.

Where none of these comes up (`NatData.Suits`) every lookup gives the rules that match
(`nat_lookup_agrees`).  The order of the predicates and of the groups plays no part.
-/

import NoxClassic.Classifier.Packet

namespace NoxClassic.Classifier

open List Option Classifier.Expr Lib

/-- `Flow_expr::Pred_t`. -/
inductive PredT where
  | locsrc | locdst | hsrc | hdst | hnetsrc | hnetdst | usrc | udst | connRole
  | groupsrc | groupdst | dlvlan | dlvlanpcp | dlsrc | dldst | dltype | nwsrc | nwdst | nwproto
  | tpsrc | tpdst | applySide | subnetsrc | subnetdst | func
  deriving DecidableEq, Repr

variable {x : PredT} {vs : List Value} {α : Type}

namespace PredT

/-- The types, by number. -/
def all : List PredT :=
  [locsrc, locdst, hsrc, hdst, hnetsrc, hnetdst, usrc, udst, connRole, groupsrc, groupdst, dlvlan,
    dlvlanpcp, dlsrc, dldst, dltype, nwsrc, nwdst, nwproto, tpsrc, tpdst, applySide, subnetsrc,
    subnetdst, func]

/-- The number of a type. -/
def toNat (x : PredT) : ℕ := all.idxOf x

/-- A type is found by its number. -/
theorem toNat_of_getElem? {n : ℕ} (h : all[n]? = some x) : x.toNat = n := by
  have hall : ∀ m : Fin 25, (all.get m).toNat = m.1 := by decide
  obtain ⟨hn, rfl⟩ := List.getElem?_eq_some_iff.1 h
  exact hall ⟨n, hn⟩

end PredT

/-- `Flow_expr::Apply_side_t`. -/
inductive ApplySide where
  | alwaysApply | applyAtSource | applyAtDestination
  deriving DecidableEq, Repr

/-- A predicate.  The type of a negated one is negative. -/
structure Pred where
  type : ℤ
  val : BitVec 64
  deriving DecidableEq

/-- The part of a `Flow_expr` that is classified. -/
structure FlowExpr where
  preds : List Pred
  applySide : ApplySide

/-- 64 bits as a value: the halves, one over the other. -/
def fold (v : BitVec 64) : Value := v.setWidth 32 ^^^ (v >>> 32).setWidth 32

namespace FlowExpr

/-- The loop of `Flow_expr::get_field`. -/
def findPred (field : ℕ) : List Pred → Option Value
  | [] => none
  | p :: ps =>
    if field = p.type then some (fold p.val)
    else if field < p.type ∨ p.type < 0 then none
    else findPred field ps

/-- The loop of `Flow_expr::splittable`. -/
def splitsPred (path : Path) : List Pred → Bool
  | [] => false
  | p :: ps =>
    if p.type < 0 then false
    else if path &&& masks p.type.toNat = 0 then true
    else splitsPred path ps

instance : Expr FlowExpr where
  numFields := 21
  numFields_le := by decide
  leafThreshold := 1
  splittable e path :=
    if e.applySide ≠ .alwaysApply ∧ path &&& masks PredT.applySide.toNat = 0 then true
    else splitsPred path e.preds
  getField e field :=
    if field = PredT.applySide.toNat then
      match e.applySide with
      | .alwaysApply => none
      | .applyAtSource => some 1
      | .applyAtDestination => some 2
    else findPred field e.preds

/-- The predicates before the first that is negated. -/
def positives (e : FlowExpr) : List Pred := e.preds.takeWhile fun p => 0 ≤ p.type

end FlowExpr

/-- `ethernetaddr::hb_long`: the first octet highest. -/
def Octets.hbLong (o : Octets) : BitVec 64 :=
  (o.extractLsb' 0 8 ++ o.extractLsb' 8 8 ++ o.extractLsb' 16 8 ++ o.extractLsb' 24 8 ++
    o.extractLsb' 32 8 ++ o.extractLsb' 40 8).setWidth 64

/-- A `GroupList`, of signed numbers. -/
abbrev GroupList := List (BitVec 64)

/-- A `NAT_data`; a null pointer is no list. -/
structure NatData where
  flow : Flow
  srcDladdrGroups : Option GroupList
  srcNwaddrGroups : Option GroupList
  dstDladdrGroups : Option GroupList
  dstNwaddrGroups : Option GroupList

/-- `in_groups`. -/
def inGroups (val : BitVec 32) : GroupList → Bool
  | [] => false
  | g :: groups =>
    if val.setWidth 64 = g then true
    else if (val.setWidth 64).slt g then false
    else inGroups val groups

/-- The group at an index of two lists, in `get_field`: without groups there is the value zero, as
none and not as any. -/
def groupAt (dl nw : Option GroupList) (idx : ℕ) : Answer :=
  let dlsize := (dl.getD []).length
  let total := dlsize + (nw.getD []).length
  if total ≤ idx then
    if 0 < idx then .absent else .value 0
  else if idx < dlsize then .value (((dl.getD [])[idx]?.getD 0).setWidth 32)
  else .value (((nw.getD [])[idx - dlsize]?.getD 0).setWidth 32)

namespace NatData

open PredT

/-- `get_field<Flow_expr, NAT_data>`.  The case of `GROUPDST` reads the groups of the source. -/
def getField (d : NatData) (field idx : ℕ) : Answer :=
  if 0 < idx ∧ field ≠ groupsrc.toNat ∧ groupdst.toNat < field then .absent
  else match PredT.all[field]? with
    | some .dlvlan => .value (d.flow.dlVlan.setWidth 32)
    | some .dlvlanpcp => .value (d.flow.dlVlanPcp.setWidth 32)
    | some .dlsrc => .value (fold d.flow.dlSrc.hbLong)
    | some .dldst => .value (fold d.flow.dlDst.hbLong)
    | some .dltype => .value (d.flow.dlType.setWidth 32)
    | some .nwsrc => .value d.flow.nwSrc
    | some .nwdst => .value d.flow.nwDst
    | some .nwproto => .value (d.flow.nwProto.setWidth 32)
    | some .tpsrc => .value (d.flow.tpSrc.setWidth 32)
    | some .tpdst => .value (d.flow.tpDst.setWidth 32)
    | some .groupsrc => groupAt d.srcDladdrGroups d.srcNwaddrGroups idx
    | some .groupdst => groupAt d.srcDladdrGroups d.srcNwaddrGroups idx
    | _ => if 0 < idx then .absent else .value 0

/-- The test of a predicate in `matches`, without the sign; some types have none. -/
def test (d : NatData) (val : BitVec 64) : PredT → Option Bool
  | .dlvlan => some (val.setWidth 32 = d.flow.dlVlan.setWidth 32)
  | .dlvlanpcp => some (val.setWidth 32 = d.flow.dlVlanPcp.setWidth 32)
  | .dlsrc => some (val = d.flow.dlSrc.hbLong)
  | .dldst => some (val = d.flow.dlDst.hbLong)
  | .dltype => some (val.setWidth 32 = d.flow.dlType.setWidth 32)
  | .nwsrc => some (val.setWidth 32 = d.flow.nwSrc)
  | .nwdst => some (val.setWidth 32 = d.flow.nwDst)
  | .nwproto => some (val.setWidth 32 = d.flow.nwProto.setWidth 32)
  | .tpsrc => some (val.setWidth 32 = d.flow.tpSrc.setWidth 32)
  | .tpdst => some (val.setWidth 32 = d.flow.tpDst.setWidth 32)
  | .groupsrc => some (d.srcDladdrGroups.any (inGroups (val.setWidth 32)) ||
      d.srcNwaddrGroups.any (inGroups (val.setWidth 32)))
  | .groupdst => some (d.dstDladdrGroups.any (inGroups (val.setWidth 32)) ||
      d.dstNwaddrGroups.any (inGroups (val.setWidth 32)))
  | .subnetsrc => some ((val >>> 32).setWidth 32 &&& d.flow.nwSrc = val.setWidth 32)
  | .subnetdst => some ((val >>> 32).setWidth 32 &&& d.flow.nwDst = val.setWidth 32)
  | _ => none

/-- The loop of `matches`.  From the first negated predicate on, `bad_result` is true. -/
def matchesLoop (d : NatData) : Bool → List Pred → Bool
  | _, [] => true
  | badResult, p :: ps =>
    let badResult := badResult || p.type < 0
    match (PredT.all[p.type.natAbs]?).bind (d.test p.val) with
    | none => false
    | some result => if result = badResult then false else matchesLoop d badResult ps

/-- `matches(rule_id, expr, data)`. -/
def matchesExpr (d : NatData) (e : FlowExpr) : Bool := d.matchesLoop false e.preds

/-- The groups of the source, as values. -/
def srcGroups (d : NatData) : List Value :=
  (d.srcDladdrGroups.getD [] ++ d.srcNwaddrGroups.getD []).map fun g => g.setWidth 32

/-- The groups of the destination, as values. -/
def dstGroups (d : NatData) : List Value :=
  (d.dstDladdrGroups.getD [] ++ d.dstNwaddrGroups.getD []).map fun g => g.setWidth 32

end NatData

/-! ### What a match says -/

/-- A value of 32 bits is folded to itself. -/
theorem fold_of_lt {v : BitVec 64} (h : v.toNat < 2 ^ 32) : fold v = v.setWidth 32 := by
  have hhigh : v >>> 32 = 0 := by
    refine BitVec.eq_of_toNat_eq ?_
    rw [BitVec.toNat_ushiftRight, Nat.shiftRight_eq_div_pow, Nat.div_eq_of_lt h]
    rfl
  rw [fold, hhigh]
  exact BitVec.xor_zero

variable {ps : List Pred} {d : NatData}

/-- A value that the tree has of a rule is of a predicate before the negated ones. -/
theorem FlowExpr.mem_positives {field : ℕ} {v : Value} (h : findPred field ps = some v) :
    ∃ p ∈ ps.takeWhile fun p => 0 ≤ p.type, p.type = field ∧ v = fold p.val := by
  induction ps with
  | nil => cases h
  | cons p ps ih =>
    rw [findPred] at h
    split at h
    · next heq =>
      have hpos : (0 : ℤ) ≤ p.type := heq ▸ Int.natCast_nonneg field
      refine ⟨p, ?_, heq.symm, (some.inj h).symm⟩
      rw [takeWhile_cons_of_pos (by simpa using hpos)]
      exact mem_cons_self
    · split at h
      · cases h
      next hge =>
      obtain ⟨p', hp', htype⟩ := ih h
      refine ⟨p', ?_, htype⟩
      have hpos : 0 ≤ p.type := by omega
      rw [takeWhile_cons_of_pos (by simpa using hpos)]
      exact mem_cons_of_mem _ hp'

/-- A rule that matches passes the tests of the predicates before the negated ones. -/
theorem NatData.test_of_matchesLoop (h : d.matchesLoop false ps = true) :
    ∀ p ∈ ps.takeWhile fun p => 0 ≤ p.type,
      ∃ x, PredT.all[p.type.natAbs]? = some x ∧ d.test p.val x = some true := by
  induction ps with
  | nil => exact nofun
  | cons p ps ih =>
    by_cases hpos : 0 ≤ p.type
    · rw [takeWhile_cons_of_pos (by simpa using hpos)]
      have hneg : (false || decide (p.type < 0)) = false := by simpa using hpos
      unfold matchesLoop at h
      simp only [hneg] at h
      split at h
      · cases h
      next result hresult =>
      split at h
      · cases h
      · next hne =>
        obtain rfl : result = true := Bool.eq_true_of_not_eq_false hne
        exact forall_mem_cons.2 ⟨bind_eq_some_iff.1 hresult, ih h⟩
    · rw [takeWhile_cons_of_neg (by simpa using hpos)]
      exact nofun

/-- A group that is found is in the list. -/
theorem mem_of_inGroups {val : BitVec 32} {groups : GroupList} (h : inGroups val groups = true) :
    val ∈ groups.map fun g => g.setWidth 32 := by
  induction groups with
  | nil => cases h
  | cons g groups ih =>
    rw [inGroups] at h
    split at h
    · next heq =>
      rw [map_cons, ← heq, BitVec.setWidth_setWidth_of_le _ (by decide), BitVec.setWidth_eq]
      exact mem_cons_self
    · split at h
      · cases h
      · exact mem_cons_of_mem _ (ih h)

theorem mem_of_any_inGroups {val : BitVec 32} {groups : Option GroupList}
    (h : groups.any (inGroups val) = true) : val ∈ (groups.getD []).map fun g => g.setWidth 32 := by
  cases groups with
  | none => cases h
  | some groups => exact mem_of_inGroups h

/-! ### The data of a lookup -/

/-- The groups that the tree is given, as a list. -/
theorem groupAt_eq (dl nw : Option GroupList)
    (hvs : vs = (dl.getD [] ++ nw.getD []).map fun g => g.setWidth 32) (idx : ℕ) :
    groupAt dl nw idx = match (if vs = [] then [0] else vs)[idx]? with
      | some v => .value v
      | none => .absent := by
  have hlen : vs.length = (dl.getD []).length + (nw.getD []).length := by simp [hvs]
  unfold groupAt
  by_cases hnil : vs = []
  · rw [if_pos hnil, if_pos (by rw [hnil] at hlen; simp only [length_nil] at hlen; omega)]
    cases idx with
    | zero | succ => rfl
  · have hpos : 0 < vs.length := length_pos_iff.2 hnil
    rw [if_neg hnil]
    by_cases hidx : idx < vs.length
    · rw [if_neg (by omega)]
      subst hvs
      rw [List.getElem?_map, List.getElem?_append]
      split
      · next hlt => rw [List.getElem?_eq_getElem hlt]; rfl
      · next hge =>
        have hlt : idx - (dl.getD []).length < (nw.getD []).length := by omega
        rw [List.getElem?_eq_getElem hlt]
        rfl
    · rw [if_pos (by omega), if_pos (by omega), List.getElem?_eq_none (by omega)]

namespace NatData

/-- Only the groups have more than one value. -/
theorem getField_succ (d : NatData) (hsrc : x ≠ .groupsrc) (hdst : x ≠ .groupdst)
    (idx : ℕ) : d.getField x.toNat (idx + 1) = .absent := by
  cases x <;> first | exact absurd rfl hsrc | exact absurd rfl hdst | rfl

/-- The groups are those of the source. -/
theorem getField_groups (d : NatData) (hx : x = .groupsrc ∨ x = .groupdst) (idx : ℕ) :
    d.getField x.toNat idx = groupAt d.srcDladdrGroups d.srcNwaddrGroups idx := by
  have hnot : ¬ (0 < idx ∧ x.toNat ≠ PredT.groupsrc.toNat ∧ PredT.groupdst.toNat < x.toNat) := by
    rcases hx with rfl | rfl
    · exact fun h => h.2.1 rfl
    · exact fun h => Nat.lt_irrefl _ h.2.2
  rw [getField, if_neg hnot]
  rcases hx with rfl | rfl <;> rfl

/-- The lookup with the data. -/
def query (d : NatData) : Query FlowExpr where
  getField := d.getField
  matchesRule _ e := some (d.matchesExpr e)
  limit := d.srcGroups.length + 1
  getField_limit field v := by
    have habs : groupAt d.srcDladdrGroups d.srcNwaddrGroups (d.srcGroups.length + 1) = .absent := by
      rw [groupAt_eq _ _ rfl, List.getElem?_eq_none]
      split
      · exact Nat.le_add_left 1 _
      · exact Nat.le_succ _
    cases hx : PredT.all[field]? with
    | none =>
      simp only [getField, hx]
      split <;> exact fun h => by cases h
    | some x =>
      rw [← PredT.toNat_of_getElem? hx]
      by_cases hg : x = .groupsrc ∨ x = .groupdst
      · rw [d.getField_groups hg, habs]
        exact fun h => by cases h
      · rw [not_or] at hg
        rw [d.getField_succ hg.1 hg.2]
        exact fun h => by cases h

/-- The values of the groups: without groups, zero. -/
theorem values_groups (d : NatData) (hx : x = .groupsrc ∨ x = .groupdst) :
    d.query.values x.toNat = some (if d.srcGroups = [] then [0] else d.srcGroups) := by
  refine values_of_list (fun idx => ?_) ?_
  · exact (d.getField_groups hx idx).trans (groupAt_eq _ _ rfl idx)
  · split
    · exact Nat.le_add_left 1 _
    · exact Nat.le_succ _

/-- Every other field has one value. -/
theorem values_single (d : NatData) (hsrc : x ≠ .groupsrc) (hdst : x ≠ .groupdst) :
    ∃ v, d.getField x.toNat 0 = .value v ∧ d.query.values x.toNat = some [v] := by
  have hfirst : ∃ v, d.getField x.toNat 0 = .value v := by
    cases x <;> first | exact absurd rfl hsrc | exact absurd rfl hdst | exact ⟨_, rfl⟩
  obtain ⟨v, hv⟩ := hfirst
  refine ⟨v, hv, values_of_list (fun idx => ?_) (Nat.le_add_left 1 _)⟩
  cases idx with
  | zero => exact hv
  | succ idx => exact d.getField_succ hsrc hdst idx

/-- The types whose tests look at 32 bits of the value. -/
def words : List PredT :=
  [.groupsrc, .groupdst, .dlvlan, .dlvlanpcp, .dltype, .nwsrc, .nwdst, .nwproto, .tpsrc, .tpdst]

/-- A tree split on the fields `F` can be asked for a rule with the data: of its positive predicates
on these fields, the values on 32 bits have no more; for one on a group, no group of the source
comes twice; for one on a group of the destination, these are groups of the source too. -/
structure Suits (F : List ℕ) (d : NatData) (e : FlowExpr) : Prop where
  words : ∀ p ∈ e.positives, ∀ x ∈ words, x.toNat ∈ F → p.type = x.toNat → p.val.toNat < 2 ^ 32
  groups : ∀ p ∈ e.positives, ∀ x ∈ [PredT.groupsrc, .groupdst], x.toNat ∈ F →
    p.type = x.toNat → d.srcGroups.Nodup
  groupdst : ∀ p ∈ e.positives, PredT.groupdst.toNat ∈ F → p.type = PredT.groupdst.toNat →
    d.dstGroups ⊆ d.srcGroups

variable {val : BitVec 64}

/-- The value of a test on 32 bits is the value of the data. -/
theorem getField_of_test (hx : x ∈ NatData.words) (hsrc : x ≠ .groupsrc) (hdst : x ≠ .groupdst)
    (h : d.test val x = some true) : d.getField x.toNat 0 = .value (val.setWidth 32) := by
  cases x <;> first
    | exact absurd rfl hsrc
    | exact absurd rfl hdst
    | exact absurd hx (by decide)
    | exact congrArg Answer.value (of_decide_eq_true (some.inj h)).symm

/-- The other tests that the tree knows are on all 64 bits. -/
theorem getField_of_test_long (hx : x ∉ NatData.words) (hlt : x.toNat < 21)
    (h : d.test val x = some true) : d.getField x.toNat 0 = .value (fold val) := by
  cases x <;> first
    | exact absurd (by decide) hx
    | exact absurd hlt (by decide)
    | exact congrArg (fun v => Answer.value (fold v)) (of_decide_eq_true (some.inj h)).symm
    | exact absurd h (by simp [test])

/-- A group that a rule asks for and that matches is one value of the data. -/
theorem count_group (hx : x = .groupsrc ∨ x = .groupdst) (hvs : d.query.values x.toNat = some vs)
    (hnd : d.srcGroups.Nodup) (hdst : x = .groupdst → d.dstGroups ⊆ d.srcGroups)
    (hval : val.toNat < 2 ^ 32) (h : d.test val x = some true) : vs.count (fold val) = 1 := by
  have hmem : val.setWidth 32 ∈ d.srcGroups := by
    rcases hx with rfl | rfl <;> have hany := some.inj h
    · rw [Bool.or_eq_true] at hany
      rw [srcGroups, map_append, mem_append]
      exact hany.imp mem_of_any_inGroups mem_of_any_inGroups
    · rw [Bool.or_eq_true] at hany
      refine hdst rfl ?_
      rw [dstGroups, map_append, mem_append]
      exact hany.imp mem_of_any_inGroups mem_of_any_inGroups
  rw [d.values_groups hx, if_neg (ne_nil_of_mem hmem), some.injEq] at hvs
  rw [← hvs, fold_of_lt hval]
  exact count_eq_one_of_mem hnd hmem

/-- **The data asks for a rule that matches once**, among the fields of the tree. -/
theorem asked_query {F : List ℕ} (hF : ∀ f ∈ F, f < 21) {r : Rule FlowExpr α}
    (hsuits : Suits F d r.expr) (h : hit d.query r = true) : Asked (· ∈ F) d.query r := by
  intro f v vs hf hv hvs
  have hside : f ≠ PredT.applySide.toNat := fun heq => by
    have h21 : PredT.applySide.toNat = 21 := by decide
    have hlt := hF f hf
    omega
  replace hv := (if_neg hside).symm.trans hv
  have hmatch : d.matchesLoop false r.expr.preds = true := by
    simpa [hit, query, matchesExpr] using h
  obtain ⟨p, hp, htype, rfl⟩ := FlowExpr.mem_positives hv
  obtain ⟨x, hx, htest⟩ := test_of_matchesLoop hmatch p hp
  rw [htype, Int.natAbs_natCast] at hx
  obtain rfl := PredT.toNat_of_getElem? hx
  by_cases hgroup : x = .groupsrc ∨ x = .groupdst
  · refine .inr (count_group hgroup hvs (hsuits.groups p hp x ?_ hf htype) ?_ ?_ htest)
    · exact mem_pair.2 hgroup
    · rintro rfl
      exact hsuits.groupdst p hp hf htype
    · refine hsuits.words p hp x ?_ hf htype
      rcases hgroup with rfl | rfl <;> decide
  · rw [not_or] at hgroup
    obtain ⟨w, hw, hvalues⟩ := d.values_single hgroup.1 hgroup.2
    obtain rfl : [w] = vs := some.inj (hvalues.symm.trans hvs)
    have heq : Answer.value w = .value (fold p.val) := by
      by_cases hword : x ∈ NatData.words
      · rw [← hw, getField_of_test hword hgroup.1 hgroup.2 htest,
          fold_of_lt (hsuits.words p hp x hword hf htype)]
      · rw [← hw]
        exact getField_of_test_long hword (hF _ hf) htest
    rw [Answer.value.injEq] at heq
    rw [heq]
    exact .inr count_singleton_self

end NatData

/-! ### Lookups agree with the predicates -/

/-- A history without deletions by data does not stop the program. -/
theorem run_isSome_of_no_deleteRules {ε : Type} [Expr ε] {ops : List (Op ε α)}
    (hops : ∀ q, Op.deleteRules q ∉ ops) (s : Classifier ε α × List (Rule ε α)) :
    ∃ c live, Lib.run track s ops = some (c, live) := by
  induction ops generalizing s with
  | nil => exact ⟨s.1, s.2, rfl⟩
  | cons op ops ih =>
    have hstep : ∃ t, track s op = some t := by
      cases op with
      | deleteRules q => exact absurd mem_cons_self (hops q)
      | _ => exact ⟨_, rfl⟩
    obtain ⟨t, ht⟩ := hstep
    obtain ⟨c, live, hrun⟩ := ih (fun q hq => hops q (mem_cons_of_mem _ hq)) t
    exact ⟨c, live, run_cons_eq_some.2 ⟨t, ht, hrun⟩⟩

/-- **A lookup of the NAT enforcer gives the rules that match**, each once, whatever additions,
deletions, changes of priority, `build`, `unbuild` and `clean` made the tree, for data that
suits the live rules on the fields that the tree is split on. -/
theorem nat_lookup_agrees {α : Type} (ops : List (Op FlowExpr α))
    (hops : ∀ q, Op.deleteRules q ∉ ops) :
    ∃ c live, Lib.run track (init, []) ops = some (c, live) ∧
      ∀ d : NatData, (∀ r ∈ live, d.Suits c.root.fields r.expr) →
        ∃ l, lookup d.query c.root = some l ∧
          l.Perm (live.filter fun r => d.matchesExpr r.expr) ∧ (l.map Rule.id).Nodup ∧
          Sorted l := by
  obtain ⟨c, live, hrun⟩ := run_isSome_of_no_deleteRules hops (init, [])
  refine ⟨c, live, hrun, fun d hsuits => ?_⟩
  have hasks : ∀ op ∈ ops, op.Asks (· < 21) := by
    intro op hop
    cases op with
    | deleteRules q => exact absurd hop (hops q)
    | _ => trivial
  have href := refines_init.run (fun _ => id) hasks hrun
  rcases href.lookup fun r hr => NatData.asked_query href.inv.among (hsuits r hr) with
    ⟨-, ⟨f, hf, hvs⟩ | ⟨r, -, hr⟩⟩ | ⟨l, hl, hperm, hnd, hs⟩
  · have hlt : f < 25 := Nat.lt_of_lt_of_le (href.inv.among f hf) (by decide)
    obtain ⟨x, hx⟩ : ∃ x, PredT.all[f]? = some x := ⟨_, List.getElem?_eq_getElem hlt⟩
    rw [← PredT.toNat_of_getElem? hx] at hvs
    by_cases hg : x = .groupsrc ∨ x = .groupdst
    · rw [d.values_groups hg] at hvs
      cases hvs
    · rw [not_or] at hg
      obtain ⟨v, -, hv⟩ := d.values_single hg.1 hg.2
      rw [hv] at hvs
      cases hvs
  · cases hr
  · refine ⟨l, hl, hperm.trans (.of_eq (filter_congr fun r _ => ?_)), hnd, hs⟩
    simp [hit, NatData.query]

/-- Two rules of one predicate each, on one type, and the tree built. -/
def twoPreds (x : PredT) (v w : BitVec 64) : List (Op FlowExpr Unit) :=
  [.addRule 0 ⟨[⟨x.toNat, v⟩], .alwaysApply⟩ (), .addRule 0 ⟨[⟨x.toNat, w⟩], .alwaysApply⟩ (),
    .build]

/-- The ids of the rules that match and of the rules of a lookup. -/
def answers (ops : List (Op FlowExpr Unit)) (d : NatData) : Option (List ℕ × Option (List ℕ)) :=
  (Lib.run track (init, []) ops).map fun s =>
    ((s.2.filter fun r => d.matchesExpr r.expr).map Rule.id,
      (lookup d.query s.1.root).map fun l => l.map Rule.id)

/-- The hypotheses of `nat_lookup_agrees` are satisfiable: two rules on the source address, the tree
built, and a flow with one of them. -/
theorem nat_lookup_agrees_two :
    ∃ c live, Lib.run track (init, []) (twoPreds .nwsrc 0 1) = some (c, live) ∧
      c.root.fields = [PredT.nwsrc.toNat] ∧
      ∃ l, lookup (NatData.query ⟨Flow.zero, none, none, none, none⟩) c.root = some l ∧
        l.Perm (live.filter fun r =>
          NatData.matchesExpr ⟨Flow.zero, none, none, none, none⟩ r.expr) ∧
        (l.map Rule.id).Nodup ∧ Sorted l := by
  obtain ⟨c, live, hrun, hagree⟩ := nat_lookup_agrees (twoPreds .nwsrc 0 1)
    fun q hq => by simp [twoPreds] at hq
  have hvalues : (Lib.run track (init, []) (twoPreds .nwsrc 0 1)).map
      (fun s => (s.1.root.fields, s.2.map fun r => r.expr.preds)) =
        some ([16], [[⟨16, 0⟩], [⟨16, 1⟩]]) := by
    decide +kernel
  rw [hrun, map_some, some.injEq, Prod.mk.injEq] at hvalues
  obtain ⟨hfields, hpreds⟩ := hvalues
  refine ⟨c, live, hrun, hfields, hagree _ fun r hr => ?_⟩
  -- the one predicate of a rule is on the address, and small
  have hp : ∀ p ∈ r.expr.positives, p.type = 16 ∧ p.val.toNat < 2 ^ 32 := by
    intro p hp
    have hmem : r.expr.preds ∈ [[⟨16, 0⟩], [⟨16, 1⟩]] :=
      hpreds ▸ mem_map_of_mem (f := fun r => r.expr.preds) hr
    have hp := (takeWhile_sublist _).subset hp
    rcases mem_pair.1 hmem with h | h <;> rw [h, mem_singleton] at hp
    all_goals exact hp ▸ ⟨rfl, by decide⟩
  rw [hfields]
  exact ⟨fun p hr' _ _ _ _ => (hp p hr').2,
    fun p _ x hx h => absurd h (by revert x; decide), fun p _ h => absurd h (by decide)⟩

/-- **The tree differs from the predicates.**  A rule on a group of the destination is not found;
nor is one whose value has more than 32 bits; a rule on a group of both addresses is found twice. -/
theorem nat_tree_differs :
    answers (twoPreds .groupdst 5 6) ⟨Flow.zero, none, none, some [5], none⟩ = some ([1], some []) ∧
    answers (twoPreds .nwsrc 0x100000000 2) ⟨Flow.zero, none, none, none, none⟩ =
      some ([1], some []) ∧
    answers (twoPreds .groupsrc 5 6) ⟨Flow.zero, some [5], some [5], none, none⟩ =
      some ([1], some [1, 1]) := by
  refine ⟨?_, ?_, ?_⟩ <;> decide +kernel

end NoxClassic.Classifier
