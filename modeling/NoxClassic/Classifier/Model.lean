/-
# The packet classifier

`Classifier` (`src/include/classifier.hh`), its tree of nodes (`cnode.hh`) and the
result set of a lookup (`cnode-result.hh`), generic as they are: over the expressions of
the rules, the actions and the data that is classified.

A node has a list of rules, by priority.  A node that is split on a field has children,
one for each value that some rule has of the field, and one for the rules that have none
(`any_node`).  The code keeps the children in hash buckets, each a chain through `next`.
Here the children of a node are one chain, and the bucket `b` is the part of it whose
values hash to `b`: a child is put in front of its bucket, so the order within a bucket is
that of the chain.  `null` is the null pointer.

Nodes have addresses, the numbers of their allocations, and a rule knows the address of
its node (`rule->node`), since `delete_rule` and `change_rule_priority` go there.  The
map of rules by id holds these pointers; the rules themselves are in the lists.  Which of
two allocations in one `build` comes first is not modelled.  Allocations do not fail.

The traversal asks the data for its values of the split field, one index after the other;
asking may stop the program (`abort`), as may matching a rule.
-/

import Mathlib.Data.List.Dedup
import Mathlib.Algebra.Group.Nat.Defs

namespace NoxClassic.Classifier

/-- A value of a field. -/
abbrev Value := BitVec 32

/-- A set of fields, as a mask. -/
abbrev Path := BitVec 32

/-- `Cnode::MASKS`. -/
def masks (field : ℕ) : Path := 1#32 <<< field

/-- What the classifier asks of the type of expressions. -/
class Expr (ε : Type) where
  numFields : ℕ
  numFields_le : numFields ≤ 32
  leafThreshold : ℕ
  splittable : ε → Path → Bool
  getField : ε → ℕ → Option Value

open Classifier.Expr

/-- A `Rule`. -/
structure Rule (ε α : Type) where
  id : ℕ
  priority : ℕ
  expr : ε
  action : α

/-- A `Cnode`, with the nodes chained after it. -/
inductive Cnode (ε α : Type) where
  | null
  | leaf (addr : ℕ) (value : Value) (rules : List (Rule ε α)) (next : Cnode ε α)
  | split (addr : ℕ) (value : Value) (rules : List (Rule ε α)) (field : ℕ) (bucketMask : ℕ)
      (children : Cnode ε α) (anyNode : Cnode ε α) (next : Cnode ε α)

/-! ### Nodes and chains -/

namespace Cnode

variable {ε α : Type}

def isNull : Cnode ε α → Bool
  | null => true
  | leaf .. => false
  | split .. => false

def value : Cnode ε α → Value
  | null => 0
  | leaf _ v _ _ => v
  | split _ v _ _ _ _ _ _ => v

/-- The nodes of a chain. -/
def siblings : Cnode ε α → List (Cnode ε α)
  | null => []
  | t@(leaf _ _ _ next) => t :: next.siblings
  | t@(split _ _ _ _ _ _ _ next) => t :: next.siblings

/-- The rules below a chain, each with the address of its node. -/
def entries : Cnode ε α → List (ℕ × Rule ε α)
  | null => []
  | leaf a _ rs next => rs.map (a, ·) ++ next.entries
  | split a _ rs _ _ cs any next =>
    rs.map (a, ·) ++ (cs.entries ++ any.entries) ++ next.entries

/-- The addresses of the nodes below a chain. -/
def addrs : Cnode ε α → List ℕ
  | null => []
  | leaf a _ _ next => a :: next.addrs
  | split a _ _ _ _ cs any next => a :: ((cs.addrs ++ any.addrs) ++ next.addrs)

/-- The rules of a node alone. -/
def ownRules : Cnode ε α → List (Rule ε α)
  | null => []
  | leaf _ _ rs _ => rs
  | split _ _ rs _ _ _ _ _ => rs

/-- The node with another chain after it. -/
def withNext : Cnode ε α → Cnode ε α → Cnode ε α
  | null, next => next
  | leaf a v rs _, next => leaf a v rs next
  | split a v rs f m cs any _, next => split a v rs f m cs any next

end Cnode

open Cnode

/-- `Cnode::get_bucket`. -/
def getBucket (v : Value) (mask : ℕ) : ℕ := (v * 2654435761#32).toNat &&& mask

/-- What hangs in the buckets, one bucket after the other. -/
def inBuckets {β : Type} (mask : ℕ) (l : List (Value × β)) : List β :=
  (List.range (mask + 1)).flatMap fun b =>
    (l.filter fun p => getBucket p.1 mask = b).map Prod.snd

variable {ε α : Type}

/-- The first child in the bucket of a value that has the value. -/
def findChild (mask : ℕ) (v : Value) (children : Cnode ε α) : Option (Cnode ε α) :=
  (children.siblings.filter fun c => getBucket c.value mask = getBucket v mask).find? fun c =>
    c.value = v

/-! ### Adding and removing rules -/

/-- `Cnode::add_rule_to_list`. -/
def addRuleToList (r : Rule ε α) : List (Rule ε α) → List (Rule ε α)
  | [] => [r]
  | s :: rs => if r.priority ≤ s.priority then r :: s :: rs else s :: addRuleToList r rs

/-- A tree with one more rule, the address of its node, and the next allocation. -/
structure Added (ε α : Type) where
  tree : Cnode ε α
  place : ℕ
  next : ℕ

/-- `Cnode::add_rule`, on the first node of a chain or, given a value, on the first with this
value. -/
def addRule [Expr ε] (r : Rule ε α) : Cnode ε α → Path → Option Value → ℕ → Added ε α
  | null, _, _, n => ⟨null, n, n⟩
  | leaf a v rs next, path, sel, n =>
    if sel.getD v = v then ⟨leaf a v (addRuleToList r rs) next, a, n⟩
    else
      let s := addRule r next path sel n
      ⟨leaf a v rs s.tree, s.place, s.next⟩
  | split a v rs f m cs any next, path, sel, n =>
    if sel.getD v = v then
      if splittable r.expr path = false then
        ⟨split a v (addRuleToList r rs) f m cs any next, a, n⟩
      else
        match getField r.expr f with
        | some w =>
          if (findChild m w cs).isSome then
            let s := addRule r cs (path ||| masks f) (some w) n
            ⟨split a v rs f m s.tree any next, s.place, s.next⟩
          else ⟨split a v rs f m (leaf n w [r] cs) any next, n, n + 1⟩
        | none =>
          if any.isNull then ⟨split a v rs f m cs (leaf n 0 [r] null) next, n, n + 1⟩
          else
            let s := addRule r any (path ||| masks f) none n
            ⟨split a v rs f m cs s.tree next, s.place, s.next⟩
    else
      let s := addRule r next path sel n
      ⟨split a v rs f m cs any s.tree, s.place, s.next⟩

/-- A change of the list of the node at an address. -/
def modifyAt (addr : ℕ) (g : List (Rule ε α) → List (Rule ε α)) : Cnode ε α → Cnode ε α
  | null => null
  | leaf a v rs next => leaf a v (if a = addr then g rs else rs) (modifyAt addr g next)
  | split a v rs f m cs any next =>
    split a v (if a = addr then g rs else rs) f m (modifyAt addr g cs) (modifyAt addr g any)
      (modifyAt addr g next)

/-- The list without its first rule with the id, as `Cnode::remove_rule` leaves it. -/
def removeRule (id : ℕ) (rs : List (Rule ε α)) : List (Rule ε α) :=
  rs.eraseP fun r => r.id = id

/-- `Cnode::change_rule_priority`. -/
def changeRulePriority (id priority : ℕ) (rs : List (Rule ε α)) : List (Rule ε α) :=
  match rs.find? fun r => r.id = id with
  | some r => addRuleToList { r with priority := priority } (rs.eraseP fun r => r.id = id)
  | none => rs

/-! ### Building -/

/-- A power of two that is at least `target`, by doubling `n`. -/
def double (target n : ℕ) : ℕ :=
  if 0 < n ∧ n < target then double target (2 * n) else n
termination_by target - n

section Build

variable [Expr ε]

/-- `Cnode::exp_rules_with_split`: the rules expected after a split, and the distinct buckets. -/
def expRulesWithSplit (rs : List (Rule ε α)) (field mask : ℕ) : ℕ × ℕ :=
  let values := rs.filterMap fun r => getField r.expr field
  let anys := rs.length - values.length
  let distinct := (values.map fun v => getBucket v mask).dedup.length
  (if distinct = 0 then anys else anys + values.length / distinct, distinct)

/-- `Cnode::best_split`: a field that is not in the path with the fewest rules expected, these, and
the distinct buckets. -/
def bestSplit (path : Path) (rs : List (Rule ε α)) : Option (ℕ × ℕ × ℕ) :=
  let mask := double (rs.length * 3) 1 - 1
  (List.range (numFields ε)).foldl (fun best i =>
    if path &&& masks i = 0 then
      let e := expRulesWithSplit rs i mask
      match best with
      | none => some (i, e.1, e.2)
      | some b => if e.1 < b.2.1 then some (i, e.1, e.2) else some b
    else best) none

/-- The field and the mask a leaf is split with, if it is worth it: the test in `Cnode::build` and
the choice in `Cnode::split`. -/
def splitChoice (path : Path) (rs : List (Rule ε α)) : Option (ℕ × ℕ) :=
  if rs.length ≤ leafThreshold ε then none
  else
    match bestSplit path rs with
    | none => none
    | some (field, expected, distinct) =>
      if rs.length - expected < leafThreshold ε then none
      else some (field, double (distinct * 3) 1 - 1)

/-- The rules of a list, added one after the other. -/
def addRules (path : Path) (rs : List (Rule ε α)) (t : Cnode ε α) (n : ℕ) : Cnode ε α × ℕ :=
  rs.foldl (fun s r =>
    let s := addRule r s.1 path none s.2
    (s.tree, s.next)) (t, n)

/-- A node with its children built by `build`, and no chain. -/
def buildChildren (build : Path → Cnode ε α → ℕ → Cnode ε α × ℕ) (path : Path) :
    Cnode ε α × ℕ → Cnode ε α × ℕ
  | (split a v rs f m cs any _, n) =>
    let c := build (path ||| masks f) cs n
    let d := build (path ||| masks f) any c.2
    (split a v rs f m c.1 d.1 null, d.2)
  | s => s

/-- A leaf at an address becomes a node split on a field, as `Cnode::split_node` and the loop in
`Cnode::split` make it, and its children are built. -/
def splitLeaf (build : Path → Cnode ε α → ℕ → Cnode ε α × ℕ) (path : Path) (addr : ℕ) (v : Value)
    (rs : List (Rule ε α)) (field mask : ℕ) (n : ℕ) : Cnode ε α × ℕ :=
  buildChildren build path (addRules path rs (split addr v [] field mask null null null) n)

/-- One level of `Cnode::build` on a copy, for the nodes of a chain. -/
def buildCopyWith (build : Path → Cnode ε α → ℕ → Cnode ε α × ℕ) (path : Path) :
    Cnode ε α → ℕ → Cnode ε α × ℕ
  | null, n => (null, n)
  | leaf a v rs next, n =>
    let s := match splitChoice path rs with
      | none => (leaf a v rs null, n)
      | some (field, mask) => splitLeaf build path a v rs field mask n
    let t := buildCopyWith build path next s.2
    (s.1.withNext t.1, t.2)
  | split a v rs f m cs any next, n =>
    let s := buildChildren build path (split a v rs f m cs any null, n)
    let t := buildCopyWith build path next s.2
    (s.1.withNext t.1, t.2)

/-- `Cnode::build` on a copy.  The levels are no more than the fields. -/
def buildCopy : ℕ → Path → Cnode ε α → ℕ → Cnode ε α × ℕ
  | 0, _, t, n => (t, n)
  | levels + 1, path, t, n => buildCopyWith (buildCopy levels) path t n

end Build

/-- The map of rules by id, with their nodes: no node is the null pointer. -/
abbrev IdMap := ℕ → Option (Option ℕ)

/-- What the nodes are allocated from, and the map of rules. -/
structure Heap where
  next : ℕ
  rules : IdMap

/-- `Cnode::set_node_pointers`. -/
def setNodePointers (t : Cnode ε α) (rules : IdMap) : IdMap :=
  t.entries.foldl (fun rules e => Function.update rules e.2.id (some (some e.1))) rules

/-- `Cnode::~Cnode`: the rules that point to the nodes lose their pointers. -/
def destroy (t : Cnode ε α) (rules : IdMap) : IdMap :=
  t.entries.foldl (fun rules e =>
    if rules e.2.id = some (some e.1) then Function.update rules e.2.id (some none)
    else rules) rules

/-- `Cnode::build` on the master tree: a leaf that is to be split is replaced by a copy. -/
def build [Expr ε] : Path → Cnode ε α → Heap → Cnode ε α × Heap
  | _, null, h => (null, h)
  | path, leaf a v rs next, h =>
    match splitChoice path rs with
    | none =>
      let t := build path next h
      (leaf a v rs t.1, t.2)
    | some (field, mask) =>
      let s := splitLeaf (buildCopy (numFields ε)) path h.next v rs field mask (h.next + 1)
      let rules := destroy (leaf a v rs null) (setNodePointers s.1 h.rules)
      let t := build path next ⟨s.2, rules⟩
      (s.1.withNext t.1, t.2)
  | path, split a v rs f m cs any next, h =>
    let c := build (path ||| masks f) cs h
    let d := build (path ||| masks f) any c.2
    let t := build path next d.2
    (split a v rs f m c.1 d.1 t.1, t.2)

/-- The lists of rules below each node of a chain, in the order of `Cnode::add_node_rules`. -/
def nodeLists : Cnode ε α → List (Value × List (List (Rule ε α)))
  | null => []
  | leaf _ v rs next => (v, [rs]) :: nodeLists next
  | split _ v rs _ m cs any next =>
    (v, rs :: ((inBuckets m (nodeLists cs)).flatten ++ (nodeLists any).flatMap Prod.snd)) ::
      nodeLists next

/-- `Rule::list_compare`, as the test that the first may stay before the second. -/
def listCompare (r s : Rule ε α) : Bool := r.priority ≤ s.priority

/-- `Cnode::unbuild`, for a tree. -/
def unbuild (t : Cnode ε α) (h : Heap) : Cnode ε α × Heap :=
  match t with
  | split _ v _ _ _ _ _ _ =>
    let rs := ((nodeLists t).flatMap Prod.snd).foldl (fun l m => l.merge m listCompare) []
    let s : Cnode ε α := leaf h.next v rs null
    (s, ⟨h.next + 1, destroy t (setNodePointers s h.rules)⟩)
  | t => (t, h)

/-- The chain without its empty subtrees, as the loop in `Cnode::clean` leaves it. -/
def prune : Cnode ε α → Cnode ε α
  | null => null
  | leaf a v rs next => if rs.isEmpty then prune next else leaf a v rs (prune next)
  | split a v rs f m cs any next =>
    if rs.isEmpty && (prune cs).isNull && (prune any).isNull then prune next
    else split a v rs f m (prune cs) (prune any) (prune next)

/-- `Cnode::clean`, for a tree: the root stays. -/
def clean : Cnode ε α → Cnode ε α
  | split a v rs f m cs any next => split a v rs f m (prune cs) (prune any) next
  | t => t

/-! ### Lookups -/

/-- What the data says to a value of a field. -/
inductive Answer where
  | value (v : Value)
  | absent
  | abort
  deriving DecidableEq

/-- The data of a lookup: `get_field` by field and index, which has no value from some index on,
and `matches` (`matchesRule`). -/
structure Query (ε : Type) where
  getField : ℕ → ℕ → Answer
  matchesRule : ℕ → ε → Option Bool
  limit : ℕ
  getField_limit : ∀ field v, getField field limit ≠ .value v

variable (q : Query ε)

/-- The values of a field from an index on. -/
def valuesFrom (field : ℕ) : ℕ → ℕ → Option (List Value)
  | 0, _ => some []
  | left + 1, idx =>
    match q.getField field idx with
    | .abort => none
    | .absent => some []
    | .value v => (valuesFrom field left (idx + 1)).map (v :: ·)

/-- The values of a field. -/
def Query.values (field : ℕ) : Option (List Value) :=
  valuesFrom q field (q.limit + 1) 0

/-- The nodes that `Cnode::traverse` puts on the stack, the last first. -/
def traversed : Cnode ε α → Option (List (Cnode ε α))
  | split _ _ _ f m cs any _ =>
    (q.values f).map fun vs =>
      let found :=
        if vs.isEmpty then inBuckets m (cs.siblings.map fun c => (c.value, c))
        else vs.filterMap fun v => findChild m v cs
      (any.siblings ++ found).reverse
  | _ => some []

/-- A bound of the nodes visited below a chain. -/
def visits : Cnode ε α → ℕ
  | null => 0
  | leaf _ _ _ next => 1 + visits next
  | split _ _ _ _ _ cs any next => 1 + ((q.limit + 1) * visits cs + visits any) + visits next

/-- A list of a result set that has been gone through so far: `current_rule`. -/
structure Slot (ε α : Type) where
  rules : List (Rule ε α)
  isMatch : Bool

/-- A `Cnode_result`. -/
structure CnodeResult (ε α : Type) where
  traversed : List (Slot ε α)
  numLists : ℕ

namespace CnodeResult

/-- An empty result set. -/
def empty : CnodeResult ε α := ⟨[], 0⟩

/-- `Cnode_result::push`. -/
def push (rs : List (Rule ε α)) (res : CnodeResult ε α) : CnodeResult ε α :=
  if rs.isEmpty then res
  else if res.numLists = res.traversed.length then
    ⟨res.traversed ++ [⟨rs, false⟩], res.numLists + 1⟩
  else ⟨res.traversed.set res.numLists ⟨rs, false⟩, res.numLists + 1⟩

/-- The slot at an index goes on to `rest`; at the end of its list the last slot takes its place. -/
def advance (i : ℕ) (rest : List (Rule ε α)) (res : CnodeResult ε α) : CnodeResult ε α :=
  if rest.isEmpty then
    match res.traversed[res.numLists - 1]? with
    | some s => ⟨res.traversed.set i s, res.numLists - 1⟩
    | none => res
  else ⟨res.traversed.set i ⟨rest, false⟩, res.numLists⟩

/-- The loop of `Cnode_result::next`.  There is no result where it reads past the end of a list or
the matching stops the program. -/
def scan : ℕ → ℕ → Option (Rule ε α × ℕ) → CnodeResult ε α →
    Option (Option (Rule ε α × ℕ) × CnodeResult ε α)
  | 0, _, _, _ => none
  | rounds + 1, i, best, res =>
    if i < res.numLists then
      match res.traversed[i]? with
      | some ⟨r :: rest, isMatch⟩ =>
        if best.all fun b => r.priority < b.1.priority then
          match if isMatch then some true else q.matchesRule r.id r.expr with
          | none => none
          | some true =>
            scan rounds (i + 1) (some (r, i))
              ⟨res.traversed.set i ⟨r :: rest, true⟩, res.numLists⟩
          | some false => scan rounds i best (res.advance i rest)
        else scan rounds (i + 1) best res
      | _ => none
    else some (best, res)

/-- The rules that are left. -/
def remaining (res : CnodeResult ε α) : List (Rule ε α) :=
  (res.traversed.take res.numLists).flatMap Slot.rules

/-- `Cnode_result::next`. -/
def next (res : CnodeResult ε α) : Option (Option (Rule ε α) × CnodeResult ε α) :=
  (scan q (res.remaining.length + res.numLists + 1) 0 none res).map fun
    | (none, res) => (none, res)
    | (some (r, i), res) =>
      (some r, res.advance i ((res.traversed[i]?.map Slot.rules).getD []).tail)

/-- `next` until there is no more. -/
def drain : ℕ → CnodeResult ε α → Option (List (Rule ε α))
  | 0, _ => none
  | rounds + 1, res =>
    match res.next q with
    | none => none
    | some (none, _) => some []
    | some (some r, res) => (drain rounds res).map (r :: ·)

end CnodeResult

/-- The loop of `Classifier::get_rules`. -/
def getRulesLoop : ℕ → List (Cnode ε α) → CnodeResult ε α → Option (CnodeResult ε α)
  | 0, _, _ => none
  | _ + 1, [], res => some res
  | rounds + 1, t :: stack, res =>
    match traversed q t with
    | none => none
    | some ts => getRulesLoop rounds (ts ++ stack) (res.push t.ownRules)

/-- `Classifier::get_rules` on a new result set. -/
def getRules (root : Cnode ε α) : Option (CnodeResult ε α) :=
  getRulesLoop q (visits q root + 1) [root] .empty

/-- A lookup: `get_rules`, and `next` until there is no more. -/
def lookup (root : Cnode ε α) : Option (List (Rule ε α)) :=
  (getRules q root).bind fun res => res.drain q (res.remaining.length + 1)

/-! ### The classifier -/

/-- The largest id. -/
def maxId : ℕ := 2 ^ 32 - 1

/-- The loop of `Classifier::get_id`: an id that is free, or none (`ENOMEM`). -/
def getId (rules : IdMap) (loop : Bool) (counter : ℕ) : Option ℕ :=
  if (rules counter).isSome then
    if maxId ≤ counter then
      if loop then none else getId rules true 1
    else getId rules loop (counter + 1)
  else some counter
termination_by (if loop then 0 else maxId + 1) + (maxId - counter)
decreasing_by
  · simp_all [maxId]
  · omega

end Classifier

/-- The `Classifier`. -/
structure Classifier (ε α : Type) where
  root : Classifier.Cnode ε α
  next : ℕ
  rules : Classifier.IdMap
  idCounter : ℕ

namespace Classifier

open Cnode

variable {ε α : Type}

/-- A new classifier. -/
def init : Classifier ε α := ⟨leaf 0 0 [] null, 1, fun _ => none, 1⟩

/-- A new classifier whose root is split on a field, with so many buckets. -/
def initSplit (field buckets : ℕ) : Classifier ε α :=
  ⟨split 0 0 [] field (buckets - 1) null null null, 1, fun _ => none, 1⟩

/-- `Classifier::reset`, to a leaf or to a node that is split on a field. -/
def reset (first : Option (ℕ × ℕ)) (c : Classifier ε α) : Classifier ε α where
  root := match first with
    | none => leaf c.next 0 [] null
    | some (field, buckets) => split c.next 0 [] field (buckets - 1) null null null
  next := c.next + 1
  rules := fun _ => none
  idCounter := 1

/-- The two constructors. -/
def new (first : Option (ℕ × ℕ)) : Classifier ε α := reset first ⟨null, 0, fun _ => none, 1⟩

/-- `Classifier::delete_rule`, with whether the rule was known. -/
def deleteRule (id : ℕ) (c : Classifier ε α) : Bool × Classifier ε α :=
  match c.rules id with
  | none => (false, c)
  | some node =>
    let root := match node with
      | some a => modifyAt a (removeRule id) c.root
      | none => c.root
    (true, { c with root := root, rules := Function.update c.rules id none })

/-- The loop of `Classifier::delete_rules`, with the number of rules deleted. -/
def deleteLoop (q : Query ε) : ℕ → CnodeResult ε α → ℕ → Classifier ε α →
    Option (ℕ × Classifier ε α)
  | 0, _, _, _ => none
  | rounds + 1, res, deleted, c =>
    match res.next q with
    | none => none
    | some (none, _) => some (deleted, c)
    | some (some r, res) =>
      let d := c.deleteRule r.id
      deleteLoop q rounds res (if d.1 then deleted + 1 else deleted) d.2

/-- `Classifier::delete_rules`. -/
def deleteRules (q : Query ε) (c : Classifier ε α) : Option (ℕ × Classifier ε α) :=
  (getRules q c.root).bind fun res => deleteLoop q (res.remaining.length + 1) res 0 c

/-- The list of the node at an address. -/
def listAt (addr : ℕ) (t : Cnode ε α) : List (Rule ε α) :=
  (t.entries.filter fun e => e.1 = addr).map Prod.snd

/-- `Classifier::change_rule_priority`, with whether the rule was found in its node. -/
def setPriority (id priority : ℕ) (c : Classifier ε α) : Bool × Classifier ε α :=
  match c.rules id with
  | some (some a) =>
    ((listAt a c.root).any fun r => r.id = id,
      { c with root := modifyAt a (changeRulePriority id priority) c.root })
  | _ => (false, c)

section Operations

variable [Expr ε]

/-- `Classifier::add_rule`, with the new id; where there is none, the counter has gone to its
end. -/
def addNewRule (priority : ℕ) (expr : ε) (action : α) (c : Classifier ε α) :
    Option ℕ × Classifier ε α :=
  match getId c.rules false c.idCounter with
  | none => (none, { c with idCounter := maxId })
  | some id =>
    let s := addRule ⟨id, priority, expr, action⟩ c.root 0 none c.next
    (some id, ⟨s.tree, s.next, Function.update c.rules id (some (some s.place)),
      if id = maxId then 1 else id⟩)

/-- An operation of the classifier. -/
inductive Op (ε α : Type) where
  | addRule (priority : ℕ) (expr : ε) (action : α)
  | deleteRule (id : ℕ)
  | deleteRules (q : Query ε)
  | changeRulePriority (id priority : ℕ)
  | build
  | unbuild
  | clean

/-- One operation.  There is no step where it stops the program. -/
def step (c : Classifier ε α) : Op ε α → Option (Classifier ε α)
  | .addRule priority expr action => some (c.addNewRule priority expr action).2
  | .deleteRule id => some (c.deleteRule id).2
  | .deleteRules q => (c.deleteRules q).map Prod.snd
  | .changeRulePriority id priority => some (c.setPriority id priority).2
  | .build =>
    let s := Classifier.build 0 c.root ⟨c.next, c.rules⟩
    some { c with root := s.1, next := s.2.next, rules := s.2.rules }
  | .unbuild =>
    let s := Classifier.unbuild c.root ⟨c.next, c.rules⟩
    some { c with root := s.1, next := s.2.next, rules := s.2.rules }
  | .clean => some { c with root := Classifier.clean c.root }

/-- An operation, or a reset. -/
inductive Call (ε α : Type) where
  | op (op : Op ε α)
  | reset (first : Option (ℕ × ℕ))

def call (c : Classifier ε α) : Call ε α → Option (Classifier ε α)
  | .op op => step c op
  | .reset first => some (c.reset first)

end Operations

end NoxClassic.Classifier
