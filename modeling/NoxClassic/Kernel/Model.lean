/-
# The kernel: components and their dependencies

`src/builtin/kernel.cc` with `kernel.hh`, and `Deployer::deploy`
(`src/builtin/deployer.cc`).  The kernel knows component contexts by name and keeps,
for each component state, a vector of the contexts in it.  `Kernel::resolve` brings
contexts from state to state: it collects the contexts of a state all of whose
dependencies are installed, runs their install actions, and starts over until a sweep
over the states changes nothing.  A dependency that is not known is installed on the
way.  While `installing` is set, `install` and `change` only note that there is more to
do.

What an install action does is not the kernel's: it may call the kernel and attach
deployers, and it ends in its target state or in `ERROR`.  The `Behaviour`s of all
actions, in the order in which they run, are a parameter.  An action that lets an
exception of the kernel out ends in `ERROR` (the contexts catch it), so the calls of a
behaviour may be any number of those the component would have made.

A sweep reads `*per_state[from]`; where no vector was ever made for a state, that is a
null pointer.  Names of interfaces, descriptions, arguments and error texts, `uuid` and
`uptime` are left out; the error kinds are kept.  The kernel carries four records that
the statements speak of: the number of actions run, the transitions, the contexts and
vectors that each action found, and those that each `resolve` left when it returned.
-/

import NoxClassic.Lib.Exec
import NoxClassic.Lib.Run

namespace NoxClassic.Kernel

open Lib

/-- `Component_state`. -/
inductive ComponentState where
  | notInstalled
  | described
  | loaded
  | factoryInstantiated
  | instantiated
  | configured
  | installed
  | error
  deriving DecidableEq, Repr

namespace ComponentState

/-- The value of the enumeration. -/
def toNat : ComponentState → ℕ
  | notInstalled => 0
  | described => 1
  | loaded => 2
  | factoryInstantiated => 3
  | instantiated => 4
  | configured => 5
  | installed => 6
  | error => 7

/-- `Component_state(i + 1)`, for the states before `INSTALLED`. -/
def next : ComponentState → ComponentState
  | notInstalled => described
  | described => loaded
  | loaded => factoryInstantiated
  | factoryInstantiated => instantiated
  | instantiated => configured
  | configured => installed
  | installed => installed
  | error => error

/-- The states from `NOT_INSTALLED` up to, but not including, `INSTALLED`. -/
def pending : List ComponentState :=
  [notInstalled, described, loaded, factoryInstantiated, instantiated, configured]

end ComponentState

open ComponentState

/-- What a deployer knows of a component: the dependencies, and the states it has an
install action for. -/
structure Description (Name : Type) where
  dependencies : List Name
  installActions : List ComponentState
  deriving DecidableEq, Repr

/-- A `Component_context`. -/
structure Context (Name : Type) where
  desc : Description Name
  current : ComponentState
  required : ComponentState
  deriving DecidableEq, Repr

/-- The kinds of `state_change_error`. -/
inductive Error where
  | installedMultipleTimes
  | descriptionNotFound
  | alreadyInstalled
  | uninstallingNotImplemented
  | unknownContext
  | cannotChange
  | noAction
  deriving DecidableEq, Repr

/-- A call of the kernel. -/
inductive Call (Name : Type) where
  | install (name : Name) (toState : ComponentState)
  | installContext (name : Name) (desc : Description Name) (toState : ComponentState)
  | change (name : Name) (toState : ComponentState)
  | attachDeployer (contexts : List (Name × Description Name))

/-- What an install action does: the calls it makes, and whether it ends in its target
state. -/
structure Behaviour (Name : Type) where
  calls : List (Call Name)
  succeeds : Bool

/-- The contexts and the vectors. -/
structure Core (Name : Type) where
  contexts : Name → Option (Context Name)
  perState : ComponentState → Option (List Name)

namespace Core

variable {Name : Type}

/-- The current state of a context, if it is known. -/
def stateOf (s : Core Name) (name : Name) : Option ComponentState :=
  (s.contexts name).map Context.current

/-- The vector of a state; empty where there is none yet. -/
def vector (s : Core Name) (st : ComponentState) : List Name :=
  (s.perState st).getD []

end Core

/-- A transition that was made, with whether the dependencies were installed then. -/
structure Transition (Name : Type) where
  name : Name
  source : ComponentState
  target : ComponentState
  dependenciesInstalled : Bool

end Kernel

/-- The `Kernel`. -/
structure Kernel (Name : Type) extends Kernel.Core Name where
  deployers : List (List (Name × Kernel.Description Name))
  stateRequirementsChanged : Bool
  installing : Bool
  actionsRun : ℕ
  transitions : List (Kernel.Transition Name)
  seen : List (Kernel.Core Name)
  settled : List (Kernel.Core Name)

namespace Kernel

open Lib ComponentState

/-- A new kernel. -/
def init (Name : Type) : Kernel Name :=
  ⟨⟨fun _ => none, fun _ => none⟩, [], false, false, 0, [], [], []⟩

variable {Name : Type} [DecidableEq Name]

/-- A computation of the kernel. -/
abbrev Result (Name α : Type) := Exec (Kernel Name) Error α

/-- The vector of a state, made if there is none, with one more context. -/
def pushState (k : Kernel Name) (st : ComponentState) (name : Name) : Kernel Name :=
  { k with perState := Function.update k.perState st (some (k.vector st ++ [name])) }

/-- `contexts[name] = ctxt`, for a new context, which is put in the first vector. -/
def addContext (k : Kernel Name) (name : Name) (desc : Description Name) : Kernel Name :=
  { k with contexts :=
      Function.update k.contexts name (some ⟨desc, notInstalled, notInstalled⟩) }.pushState
    notInstalled name

/-- `ctxt->set_required_state(to)`. -/
def setRequired (k : Kernel Name) (name : Name) (toState : ComponentState) : Kernel Name :=
  { k with contexts := Function.update k.contexts name <|
      (k.contexts name).map fun c => { c with required := toState } }

/-- `current_state = st` of a context. -/
def setCurrent (k : Kernel Name) (name : Name) (st : ComponentState) : Kernel Name :=
  { k with contexts := Function.update k.contexts name <|
      (k.contexts name).map fun c => { c with current := st } }

/-- A context goes from the vector of one state to that of another, its new state. -/
def refile (k : Kernel Name) (st target : ComponentState) (name : Name) : Kernel Name :=
  let k := k.setCurrent name target
  { k with perState :=
      Function.update k.perState st (some ((k.vector st).erase name)) }.pushState target name

/-- The contexts and vectors are seen by code that is not the kernel's. -/
def observe (k : Kernel Name) : Kernel Name :=
  { k with seen := k.toCore :: k.seen }

/-! ### `install` and `change`

`resolve` is a parameter: within `resolve` itself it is not called. -/

/-- `Kernel::change`. -/
def change (resolve : Kernel Name → Result Name Unit) (name : Name) (toState : ComponentState)
    (k : Kernel Name) : Result Name Unit :=
  match k.contexts name with
  -- a context that was never given to the kernel is in its first state
  | none => if toState = notInstalled then .ok () k else .throw .unknownContext k
  | some c =>
    if c.current = toState then .ok () k
    else if toState.toNat < c.current.toNat then .throw .uninstallingNotImplemented k
    else
      let k := k.setRequired name toState
      if k.installing then .ok () { k with stateRequirementsChanged := true }
      else (resolve k).bind fun _ k =>
        if k.stateOf name = some toState then .ok () k else .throw .cannotChange k

/-- `Kernel::install` of a context. -/
def installContext (resolve : Kernel Name → Result Name Unit) (name : Name)
    (desc : Description Name) (toState : ComponentState) (k : Kernel Name) : Result Name Unit :=
  if (k.contexts name).isSome then .throw .alreadyInstalled k
  else change resolve name toState (k.addContext name desc)

/-- The first deployer that knows the name gives its context away. -/
def takeDescription (name : Name) : List (List (Name × Description Name)) →
    Option (Description Name × List (List (Name × Description Name)))
  | [] => none
  | ds :: rest =>
    match ds.find? fun d => d.1 = name with
    | some d => some (d.2, ds.filter (fun d => d.1 ≠ name) :: rest)
    | none => (takeDescription name rest).map fun r => (r.1, ds :: r.2)

/-- `Kernel::install` by name, with `Deployer::deploy`. -/
def install (resolve : Kernel Name → Result Name Unit) (name : Name) (toState : ComponentState)
    (k : Kernel Name) : Result Name Unit :=
  if (k.contexts name).isSome then .throw .installedMultipleTimes k
  else
    match takeDescription name k.deployers with
    | none => .throw .descriptionNotFound k
    | some (desc, deployers) =>
      (installContext resolve name desc notInstalled { k with deployers := deployers }).bind
        fun _ k => change resolve name toState k

/-- A call of the kernel. -/
def perform (resolve : Kernel Name → Result Name Unit) (k : Kernel Name) :
    Call Name → Result Name Unit
  | .install name toState => install resolve name toState k
  | .installContext name desc toState => installContext resolve name desc toState k
  | .change name toState => change resolve name toState k
  | .attachDeployer contexts => .ok () { k with deployers := k.deployers ++ [contexts] }

/-- What `resolve` is within `resolve`, where `installing` is set: never called. -/
def noResolve (_ : Kernel Name) : Result Name Unit := .crash

/-! ### `resolve` -/

/-- `Name_dependency::resolve`. -/
def resolveDependency (name : Name) (k : Kernel Name) : Result Name Bool :=
  match k.contexts name with
  | none => (install noResolve name installed k).bind fun _ k => .ok false k
  | some c => .ok (c.current = installed) k

/-- `Component_context::resolve`: the dependencies up to the first that is not met. -/
def resolveDependencies : List Name → Kernel Name → Result Name Bool
  | [], k => .ok true k
  | d :: ds, k => (resolveDependency d k).bind fun met k =>
    if met then resolveDependencies ds k else .ok false k

/-- The contexts of a state that can go on, from index `i` of its vector, which may grow
meanwhile. -/
def collect (st : ComponentState) : ℕ → ℕ → Kernel Name → Result Name (List Name)
  | 0, _, _ => .spin
  | fuel + 1, i, k =>
    match (k.vector st)[i]? with
    | none => .ok [] k
    | some name =>
      match k.contexts name with
      | none => .crash
      | some c => (resolveDependencies c.desc.dependencies k).bind fun met k =>
        (collect st fuel (i + 1) k).bind fun names k =>
          .ok (if met then name :: names else names) k

variable (act : ℕ → Behaviour Name)

/-- The calls that an action makes.  What they throw stays with the action. -/
def runCalls : List (Call Name) → Kernel Name → Result Name Unit
  | [], k => .ok () k
  | c :: cs, k =>
    match perform noResolve k c with
    | .ok _ k => runCalls cs k.observe
    | .throw _ k => runCalls cs k.observe
    | .crash => .crash
    | .spin => .spin

/-- The body of the loop in `resolve(from, to)`: the action of one context is run, and the
context goes to the vector of its new state. -/
def advance (st : ComponentState) (name : Name) (k : Kernel Name) : Result Name Unit :=
  match k.contexts name with
  | none => .crash
  | some c =>
    if st.next ∉ c.desc.installActions then .throw .noAction k
    else
      let b := act k.actionsRun
      (runCalls b.calls { k with actionsRun := k.actionsRun + 1 }.observe).bind fun _ k =>
        let target := if b.succeeds then st.next else .error
        let met := c.desc.dependencies.all fun d => k.stateOf d = some installed
        -- the assertion that the context is gone from the vector
        if name ∈ (k.vector st).erase name then .crash
        else
          .ok () ({ k with
            transitions := ⟨name, st, target, met⟩ :: k.transitions }.refile st target name)

/-- The loop in `resolve(from, to)`. -/
def advanceAll (st : ComponentState) : List Name → Kernel Name → Result Name Unit
  | [], k => .ok () k
  | name :: names, k => (advance act st name k).bind fun _ k => advanceAll st names k

/-- `Kernel::resolve(from, to)`: whether there was progress. -/
def resolveState (fuel : ℕ) (st : ComponentState) (k : Kernel Name) : Result Name Bool :=
  match k.perState st with
  | none => .crash
  | some _ => (collect st fuel 0 k).bind fun names k =>
    (advanceAll act st names k).bind fun _ k => .ok (!names.isEmpty) k

/-- The `for` loop of `Kernel::resolve`, which ends at the first progress. -/
def sweep (fuel : ℕ) : List ComponentState → Kernel Name → Result Name Bool
  | [], k => .ok false k
  | st :: sts, k => (resolveState act fuel st k).bind fun progress k =>
    if progress then .ok true k else sweep fuel sts k

/-- The `while` loop of `Kernel::resolve`. -/
def resolveLoop (inner : ℕ) : ℕ → Bool → Kernel Name → Result Name Unit
  | 0, _, _ => .spin
  | fuel + 1, progress, k =>
    if progress || k.stateRequirementsChanged then
      (sweep act inner pending { k with stateRequirementsChanged := false }).bind
        fun progress k => resolveLoop inner fuel progress k
    else .ok () k

/-- `Kernel::resolve`.  An exception leaves `installing` set. -/
def resolve (fuel : ℕ) (k : Kernel Name) : Result Name Unit :=
  (resolveLoop act fuel fuel true { k with installing := true }).bind fun _ k =>
    .ok () { k with installing := false, settled := k.toCore :: k.settled }

/-- One call from outside; its caller catches what it throws.  There is no step where the
call crashes or does not end. -/
def step (fuel : ℕ) (k : Kernel Name) (c : Call Name) : Option (Kernel Name) :=
  (perform (resolve act fuel) k c).state?

end NoxClassic.Kernel
