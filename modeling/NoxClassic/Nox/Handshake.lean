/-
# The handshake with a switch

`Handshake_fsm` (`src/builtin/nox.cc`).  A new connection is asked for its features
and, with a vendor message, for its capabilities.  A management channel is then asked
for its resources and its configuration.  Then the switch is authorised and the
connection registered:

    send features ─ send config ─ features ─ send capability ─ capability
        ├─ no manager, or an error ───────────────── authorise ─ register switch
        └─ send resources ─ resources ─ send config ─ config ─ authorise ─ register mgmt

Each activation of `run` sends or receives at most one message, and ends by blocking,
yielding or exiting.  What the peer sends is arbitrary, and every message is looked at
in every state.  A step is one activation, with what its calls return (`Io`), or the
answer of the authorisation, which may come at any time after it was asked for.

Management messages are decoded like those of a registered connection
(`Openflow.Message`): the code that collects fragments is the same, and so are the
constructors of the resources and the ports.  They rely on what `Sound` names.  The
text of the capabilities is parsed by `Cfg`, which is left out; `manager` says whether
it names a manager.  An activation that reads outside a message, follows a null
pointer or does not end leaves a `fault`.
-/

import NoxClassic.Lib.Run
import NoxClassic.Openflow.Decode

namespace NoxClassic.Nox.Handshake

open List Option Lib Openflow.Message

/-- `Handshake_state`. -/
inductive State where
  | sendFeaturesReq
  | sendConfig
  | recvFeaturesReply
  | sendMgmtCapabilityReq
  | recvMgmtCapabilityReply
  | sendMgmtResourcesReq
  | recvMgmtResourcesUpdate
  | sendMgmtConfigReq
  | recvMgmtConfigUpdate
  | checkSwitchAuth
  | checkMgmtAuth
  | registerSwitch
  | registerMgmt
  deriving DecidableEq

/-- How an activation ends. -/
inductive Action where
  | block
  | yield
  | exit
  deriving DecidableEq

/-- What the results speak of. -/
inductive Note where
  /-- A features reply with all of its fixed part. -/
  | features
  /-- A capability reply that names a manager. -/
  | capability
  | resources
  | config
  | approved
  | registeredSwitch (dpId : ℕ)
  | registeredMgmt (mgmtId : ℕ)
  deriving DecidableEq

/-- `Handshake_fsm`.  `asking` is the state that an authorisation which was asked for leads to,
`actions` what the activations so far did, the newest first, and `log` what happened. -/
structure Fsm where
  state : State
  timeout : ℕ
  switchApproved : Bool
  mgmtId : ℕ
  swmCaps : List UInt8
  swmConfig : List UInt8
  ext : Connection
  featuresReply : Option (List UInt8)
  resourcesEvent : Option Resources
  asking : Option State
  activations : ℕ
  actions : List Action
  log : List Note
  fault : Option Fault

/-- What a call to receive returns. -/
inductive Received where
  | again
  | error
  | message (buf : List UInt8)

/-- What an activation meets: the time, each time that it is read; whether there is an
authorisation module; what a send and a receive return; and the rounds of its loops and calls. -/
structure Io where
  now : ℕ → ℕ
  auth : Bool
  sent : Received
  received : Received
  rounds : ℕ

namespace Fsm

/-- The constructor. -/
def init (timeout : ℕ) : Fsm where
  state := .sendFeaturesReq
  timeout := timeout
  switchApproved := false
  mgmtId := 0
  swmCaps := []
  swmConfig := []
  ext := Connection.init
  featuresReply := none
  resourcesEvent := none
  asking := none
  activations := 0
  actions := []
  log := []
  fault := none

def act (f : Fsm) (a : Action) : Fsm := { f with actions := a :: f.actions }

def note (f : Fsm) (n : Note) : Fsm := { f with log := n :: f.log }

def goto (f : Fsm) (st : State) : Fsm := { f with state := st }

/-- `do_exit`. -/
def doExit (f : Fsm) : Fsm := f.act .exit

/-- The state that a message which was sent leads to. -/
def sentState : State → Option State
  | .sendFeaturesReq => some .sendConfig
  | .sendConfig => some .recvFeaturesReply
  | .sendMgmtCapabilityReq => some .recvMgmtCapabilityReply
  | .sendMgmtResourcesReq => some .recvMgmtResourcesUpdate
  | .sendMgmtConfigReq => some .recvMgmtConfigUpdate
  | _ => none

/-- `send_message`. -/
def sendMessage (f : Fsm) (io : Io) : Fsm :=
  match sentState f.state with
  | none => f.doExit
  | some next =>
    match io.sent with
    | .again => f.act .block
    | .error => f.doExit
    | .message _ => (f.goto next).act .yield

/-- `ntohll(features_reply->datapath_id)`. -/
def featuresId (f : Fsm) : Except Fault ℕ :=
  match f.featuresReply with
  | none => .error .null
  | some osf => u64 osf 8

/-- `handle_ofmp_capability`. -/
def handleOfmpCapability (manager : List UInt8 → Bool) (f : Fsm) (buf : List UInt8) :
    Except Fault Fsm :=
  let dataLen := asInt (buf.length - 32)
  if dataLen < 0 then .ok f
  else do
    let format ← u32 buf 20
    if format ≠ 0 then return f
    else do
      let mgmtId ← u64 buf 24
      let data ← bytes buf 32 dataLen.toNat
      let f := { f with mgmtId := mgmtId, swmCaps := data }
      if manager data then return (f.note .capability).goto .sendMgmtResourcesReq
      else do
        let _dpId ← f.featuresId
        return f.goto .checkSwitchAuth

/-- `handle_ofmp_resources`. -/
def handleOfmpResources (rounds : ℕ) (f : Fsm) (buf : List UInt8) : Except Fault Fsm := do
  let resources ← readResources rounds buf buf.length
  return { f with resourcesEvent := some resources }

/-- `handle_ofmp_config_update`. -/
def handleOfmpConfigUpdate (f : Fsm) (buf : List UInt8) : Except Fault Fsm :=
  let dataLen := asInt (buf.length - 44)
  if dataLen < 0 then .ok f
  else do
    let format ← u32 buf 20
    if format ≠ 0 then return f
    else do
      let data ← bytes buf 44 dataLen.toNat
      return { f with swmConfig := data }

/-- The cases of `handle_vendor` other than `OFMPT_EXTENDED_DATA`. -/
def handleOfmp (manager : List UInt8 → Bool) (rounds : ℕ) (f : Fsm) (buf : List UInt8)
    (type : ℕ) : Except Fault Fsm :=
  if type = 1 then
    if f.state ≠ .recvMgmtCapabilityReply then .ok f
    else handleOfmpCapability manager f buf
  else if type = 3 then
    if f.state ≠ .recvMgmtResourcesUpdate then .ok f
    else do
      let f ← handleOfmpResources rounds f buf
      return (f.note .resources).goto .sendMgmtConfigReq
  else if type = 5 then
    if f.state ≠ .recvMgmtConfigUpdate then .ok f
    else do
      let f ← f.handleOfmpConfigUpdate buf
      -- also when the update was bad
      return (f.note .config).goto .checkMgmtAuth
  else if type = 7 then do
    let _ ← handleOfmpError buf
    return f
  else .ok f

/-- `handle_vendor`, which handles the message that a fragment completes like any other. -/
def handleVendor (manager : List UInt8 → Bool) : ℕ → Fsm → List UInt8 → Except Fault Fsm
  | 0, _, _ => .error .spin
  | rounds + 1, f, buf =>
    if buf.length < 16 then .ok f
    else do
      let vendor ← u32 buf 8
      let subtype ← u32 buf 12
      if vendor ≠ 0x2320 ∨ subtype ≠ 8 then return f
      else if buf.length < 20 then return f
      else do
        let xid ← bytes buf 4 4
        let ext ← resetExtData f.ext xid
        let f := { f with ext := ext }
        let type ← u16 buf 16
        if type = 8 then do
          let (whole?, ext) ← reassemble f.ext buf
          let f := { f with ext := ext }
          match whole? with
          | none => return f
          | some whole => do
            let f ← handleVendor manager rounds f whole
            return { f with ext := { f.ext with extDataBuffer := some [] } }
        else handleOfmp manager rounds f buf type

/-- `send_echo_reply`, as far as it reads the request. -/
def sendEchoReply (buf : List UInt8) : Except Fault Unit := do
  let size ← u16 buf 2
  let reply ← bytes buf 0 size
  if reply.length < 8 then .error .assertion else return ()

/-- A features reply in the state that waits for one. -/
def handleFeaturesReply (f : Fsm) (buf : List UInt8) : Fsm :=
  if 32 ≤ buf.length then
    ({ f with featuresReply := some buf }.note .features).goto .sendMgmtCapabilityReq
  else { f with featuresReply := none }

/-- An error message; the answer to the capability request of a switch without management. -/
def handleError (f : Fsm) (buf : List UInt8) : Except Fault Fsm :=
  if f.state = .recvMgmtCapabilityReply then do
    let _dpId ← f.featuresId
    return (f.goto .checkSwitchAuth).act .yield
  else
    match tryAt buf 12 with
    | none => .error .null
    | some oem => do
      let _type ← u16 oem 8
      let _code ← u16 oem 10
      return f.doExit

/-- `recv_message`. -/
def recvMessage (manager : List UInt8 → Bool) (f : Fsm) (io : Io) : Except Fault Fsm :=
  match io.received with
  | .again => .ok (f.act .block)
  | .error => .ok f.doExit
  | .message buf =>
    if buf.length < 8 then .ok (f.act .yield)
    else do
      let type ← u8 buf 1
      if type = 6 then
        if f.state ≠ .recvFeaturesReply then return f.act .yield
        else return (f.handleFeaturesReply buf).act .yield
      else if type = 4 then do
        let f ← handleVendor manager io.rounds f buf
        return f.act .yield
      else if type = 2 then do
        let _ ← sendEchoReply buf
        return f.act .yield
      else if type = 1 then f.handleError buf
      else return f.act .yield

/-- `Datapath_join_event::Datapath_join_event`, as far as it reads the features reply. -/
def readFeatures (osf : List UInt8) : Except Fault Unit := do
  let _nBuffers ← u32 osf 16
  let _nTables ← u8 osf 20
  let _capabilities ← u32 osf 24
  let _actions ← u32 osf 28
  let length ← u16 osf 2
  let _ports ← array Port.read 48 (subSize length 32 / 48) (osf.drop 32)
  return ()

/-- `register_switch`. -/
def registerSwitch (f : Fsm) : Except Fault Fsm := do
  let dpId ← f.featuresId
  if ¬ f.switchApproved then return f.doExit
  else if dpId = 0 then return f.doExit
  else do
    let f := f.note (.registeredSwitch dpId)
    match f.featuresReply with
    | none => .error .null
    | some osf => do
      let _ ← readFeatures osf
      return f.doExit

/-- `register_mgmt`. -/
def registerMgmt (f : Fsm) : Except Fault Fsm :=
  if ¬ f.switchApproved then .ok f.doExit
  else if f.mgmtId = 0 then .ok f.doExit
  else
    let f := f.note (.registeredMgmt f.mgmtId)
    if f.resourcesEvent.isNone then .error .assertion else .ok f.doExit

/-- `check_switch_auth`; without a module, `run` is called again. -/
def checkSwitchAuth (f : Fsm) (io : Io) (next : State) (run : Fsm → Except Fault Fsm) :
    Except Fault Fsm :=
  if ¬ io.auth then run (({ f with switchApproved := true }.note .approved).goto next)
  else if f.featuresReply.isNone then .error .assertion
  else .ok ({ f with asking := some next }.act .block)

/-- `run`. -/
def run (manager : List UInt8 → Bool) (io : Io) : ℕ → Fsm → Except Fault Fsm
  | 0, _ => .error .spin
  | rounds + 1, f =>
    if f.timeout < io.now rounds then .ok f.doExit
    else
      match f.state with
      | .sendFeaturesReq | .sendConfig | .sendMgmtCapabilityReq | .sendMgmtResourcesReq
      | .sendMgmtConfigReq => .ok (f.sendMessage io)
      | .recvFeaturesReply | .recvMgmtCapabilityReply | .recvMgmtResourcesUpdate
      | .recvMgmtConfigUpdate => f.recvMessage manager io
      | .checkSwitchAuth => f.checkSwitchAuth io .registerSwitch (run manager io rounds)
      | .checkMgmtAuth => f.checkSwitchAuth io .registerMgmt (run manager io rounds)
      | .registerSwitch => f.registerSwitch
      | .registerMgmt => f.registerMgmt

end Fsm

/-- An activation, or the answer of the authorisation. -/
inductive Act where
  | activate (io : Io)
  | answer (approved : Bool)

/-- One step.  The fsm is activated unless it has ended or waits for the authorisation;
`switch_auth_cb` takes the answer. -/
def Fsm.step (manager : List UInt8 → Bool) (f : Fsm) : Act → Option Fsm
  | .activate io =>
    if .exit ∈ f.actions ∨ f.asking.isSome ∨ f.fault.isSome then none
    else
      match f.run manager io io.rounds with
      | .ok f => some { f with activations := f.activations + 1 }
      | .error e => some { f with fault := some e }
  | .answer approved =>
    f.asking.map fun next =>
      { (if approved then f.note .approved else f) with
        switchApproved := approved, state := next, asking := none }

/-! ### What has happened in a state -/

/-- The messages that have arrived when a state is reached, the newest first. -/
def past : State → List Note
  | .sendFeaturesReq | .sendConfig | .recvFeaturesReply => []
  | .sendMgmtCapabilityReq | .recvMgmtCapabilityReply | .checkSwitchAuth | .registerSwitch =>
    [.features]
  | .sendMgmtResourcesReq | .recvMgmtResourcesUpdate => [.capability, .features]
  | .sendMgmtConfigReq | .recvMgmtConfigUpdate => [.resources, .capability, .features]
  | .checkMgmtAuth | .registerMgmt => [.config, .resources, .capability, .features]

/-- A registration comes after what it needs, with an id that is not zero. -/
def Gated : List Note → Prop
  | [] => True
  | .registeredSwitch d :: older => Gated older ∧ d ≠ 0 ∧ [.approved, .features].Sublist older
  | .registeredMgmt d :: older => Gated older ∧ d ≠ 0 ∧
      [.approved, .config, .resources, .capability, .features].Sublist older
  | _ :: older => Gated older

/-- A features reply whose ports have names that end. -/
structure Features (osf : List UInt8) : Prop where
  fixed : 32 ≤ osf.length
  framed : field osf 2 2 = osf.length
  names : ∀ i < (osf.length - 32) / 48, 0 ∈ osf.drop (32 + i * 48 + 8)

/-- What holds of an fsm before and after an activation, and in it. -/
structure Core (f : Fsm) : Prop where
  arrived : (past f.state).Sublist f.log
  features : .features ∈ past f.state → ∃ osf, f.featuresReply = some osf ∧ Features osf
  resources : .resources ∈ past f.state → f.resourcesEvent.isSome
  approved : f.switchApproved = true → (f.state = .registerSwitch ∨ f.state = .registerMgmt) ∧
    (.approved :: past f.state).Sublist f.log
  asking : ∀ next, f.asking = some next → (f.state = .checkSwitchAuth ∧ next = .registerSwitch) ∨
    (f.state = .checkMgmtAuth ∧ next = .registerMgmt)
  gated : Gated f.log

/-- What the handling of a message leaves alone. -/
structure Frame (f f' : Fsm) : Prop where
  timeout : f'.timeout = f.timeout
  actions : f'.actions = f.actions
  activations : f'.activations = f.activations
  fault : f'.fault = f.fault
  asking : f'.asking = f.asking
  approved : f'.switchApproved = f.switchApproved

theorem Frame.refl (f : Fsm) : Frame f f := ⟨rfl, rfl, rfl, rfl, rfl, rfl⟩

theorem Frame.trans {f g h : Fsm} (h1 : Frame f g) (h2 : Frame g h) : Frame f h :=
  ⟨h2.timeout.trans h1.timeout, h2.actions.trans h1.actions,
    h2.activations.trans h1.activations, h2.fault.trans h1.fault,
    h2.asking.trans h1.asking, h2.approved.trans h1.approved⟩

variable {f f' : Fsm} {manager : List UInt8 → Bool} {buf : List UInt8} {io : Io} {st₀ st : State}

/-- In a state that waits for messages nothing is approved. -/
theorem Core.not_approved (h : Core f) (hsw : f.state ≠ .registerSwitch)
    (hmgmt : f.state ≠ .registerMgmt) : f.switchApproved = false := by
  cases happ : f.switchApproved with
  | false => rfl
  | true => exact (((h.approved happ).1.resolve_left hsw) |> hmgmt).elim

/-- The fsm goes on to a state that needs nothing more. -/
theorem Core.goto (h : Core f) (happ : f.switchApproved = false) (hask : f.asking = none)
    (hst : f.state = st₀) (hpast : past st = past st₀) : Core (f.goto st) := by
  rw [← hst] at hpast
  refine ⟨?_, ?_, ?_, fun happ' => ?_, fun next hnext => ?_, h.gated⟩
  · exact hpast ▸ h.arrived
  · exact hpast ▸ h.features
  · exact hpast ▸ h.resources
  · nomatch happ.symm.trans happ'
  · nomatch hask.symm.trans hnext

/-- The fsm goes on to a state that a message leads to. -/
theorem Core.advance (h : Core f) (happ : f.switchApproved = false) (hask : f.asking = none)
    {n : Note} (hst : f.state = st₀) (hpast : past st = n :: past st₀) (hgated : Gated (n :: f.log))
    (hfeatures : n = .features → ∃ osf, f.featuresReply = some osf ∧ Features osf)
    (hresources : n = .resources → f.resourcesEvent.isSome) : Core ((f.note n).goto st) := by
  rw [← hst] at hpast
  refine ⟨?_, fun hmem => ?_, fun hmem => ?_, fun happ' => ?_, fun next hnext => ?_, hgated⟩
  · show (past st).Sublist (n :: f.log)
    rw [hpast]
    exact h.arrived.cons_cons n
  · replace hmem : Note.features ∈ past st := hmem
    rw [hpast, mem_cons] at hmem
    exact hmem.elim (fun heq => hfeatures heq.symm) h.features
  · replace hmem : Note.resources ∈ past st := hmem
    rw [hpast, mem_cons] at hmem
    exact hmem.elim (fun heq => hresources heq.symm) h.resources
  · nomatch happ.symm.trans happ'
  · nomatch hask.symm.trans hnext

/-- Other members do not matter. -/
theorem Core.congr (h : Core f)
    (hsame : (f'.state, f'.log, f'.featuresReply, f'.switchApproved, f'.asking) =
      (f.state, f.log, f.featuresReply, f.switchApproved, f.asking))
    (hresources : f'.resourcesEvent = f.resourcesEvent ∨ f'.resourcesEvent.isSome) : Core f' := by
  simp only [Prod.mk.injEq] at hsame
  obtain ⟨hstate, hlog, hfeatures, happ, hask⟩ := hsame
  refine ⟨?_, ?_, fun hmem => ?_, ?_, ?_, ?_⟩
  · rw [hstate, hlog]
    exact h.arrived
  · rw [hstate, hfeatures]
    exact h.features
  · rw [hstate] at hmem
    exact hresources.elim (fun heq => heq ▸ h.resources hmem) id
  · rw [hstate, hlog, happ]
    exact h.approved
  · rw [hstate, hask]
    exact h.asking
  · rw [hlog]
    exact h.gated

/-! ### Messages -/

/-- What the fsm relies on when it receives a message: an error message has its fixed part, unless
it answers the capability request; names of ports and of interfaces end; a management error
has its fixed part and the TLVs of resources fit; and a message that is completed is not a
fragment itself. -/
structure Sound (f : Fsm) (buf : List UInt8) : Prop where
  error : typeOf buf = 1 → f.state ≠ .recvMgmtCapabilityReply → 12 ≤ buf.length
  ports : typeOf buf = 6 → f.state = .recvFeaturesReply →
    ∀ i < (buf.length - 32) / 48, 0 ∈ buf.drop (32 + i * 48 + 8)
  ofmpError : typeOf buf = 4 → IsOfmp buf → ofmpType buf = 7 → 24 ≤ buf.length
  names : typeOf buf = 4 → IsOfmp buf → ofmpType buf = 3 → f.state = .recvMgmtResourcesUpdate →
    TlvsDecodable (buf.drop 20)
  whole : ∀ whole, typeOf buf = 4 → IsOfmp buf → ofmpType buf = 8 →
    completed f.ext buf = some whole → ofmpType whole ≠ 8 ∧ whole.length < 2 ^ 31 ∧
      (ofmpType whole = 3 → f.state = .recvMgmtResourcesUpdate → TlvsDecodable (whole.drop 20))

theorem Core.featuresId (h : Core f) (hmem : .features ∈ past f.state) :
    Yields f.featuresId fun _ => True := by
  obtain ⟨osf, hosf, hf⟩ := h.features hmem
  have := hf.fixed
  unfold Fsm.featuresId
  rw [hosf]
  dsimp only
  rw [u64_of_le (by omega)]
  exact .safe

theorem asInt_of_mem {x : ℤ} (hlo : -2 ^ 31 ≤ x) (hhi : x < 2 ^ 31) : asInt x = x :=
  Int.bmod_eq_of_le (by omega) (by omega)

/-- A capability reply leads to the authorisation of a switch or on to the resources. -/
theorem yields_handleOfmpCapability (h : Core f) (hask : f.asking = none)
    (hst : f.state = .recvMgmtCapabilityReply) (hint : buf.length < 2 ^ 31) :
    Yields (f.handleOfmpCapability manager buf)
      fun f' => Core f' ∧ Frame f f' ∧ f'.ext = f.ext := by
  have happ := h.not_approved (by rw [hst]; decide) (by rw [hst]; decide)
  have hdata : asInt ((buf.length : ℤ) - 32) = buf.length - 32 := asInt_of_mem (by omega) (by omega)
  unfold Fsm.handleOfmpCapability
  dsimp only
  rw [hdata]
  split_ifs with hneg
  · exact .ok ⟨h, .refl f, rfl⟩
  have hlen : ((buf.length : ℤ) - 32).toNat = buf.length - 32 := by omega
  rw [u32_of_le (by omega), ok_bind]
  refine .ite (fun _ => .ok ⟨h, .refl f, rfl⟩) fun _ => ?_
  rw [u64_of_le (by omega), ok_bind, hlen, bytes_of_le (by omega), ok_bind]
  set g : Fsm := { f with
    mgmtId := field buf 24 8, swmCaps := (buf.drop 32).take (buf.length - 32) } with hg
  have hcore : Core g := h.congr rfl (.inl rfl)
  split_ifs with hmanager
  · exact .ok ⟨hcore.advance happ hask hst rfl h.gated nofun nofun,
      ⟨rfl, rfl, rfl, rfl, rfl, rfl⟩, rfl⟩
  · exact (hcore.featuresId (by rw [hst]; decide)).bind fun _ _ =>
      .ok ⟨hcore.goto happ hask hst rfl, ⟨rfl, rfl, rfl, rfl, rfl, rfl⟩, rfl⟩

/-- A management message that is not a fragment. -/
theorem yields_handleOfmp' (h : Core f) (hask : f.asking = none) (h20 : 20 ≤ buf.length)
    (hint : buf.length < 2 ^ 31)
    (hnames : ofmpType buf = 3 → f.state = .recvMgmtResourcesUpdate → TlvsDecodable (buf.drop 20))
    (herror : ofmpType buf = 7 → 24 ≤ buf.length) {rounds : ℕ} (hr : buf.length ≤ rounds) :
    Yields (f.handleOfmp manager rounds buf (ofmpType buf))
      fun f' => Core f' ∧ Frame f f' ∧ f'.ext = f.ext := by
  have hsame := Yields.ok (Q := fun f' => Core f' ∧ Frame f f' ∧ f'.ext = f.ext) ⟨h, .refl f, rfl⟩
  refine .ite (fun _ => .ite (fun _ => hsame) fun hst => ?_) fun _ =>
    .ite (fun h3 => .ite (fun _ => hsame) fun hst => ?_) fun _ =>
    .ite (fun _ => .ite (fun _ => hsame) fun hst => ?_) fun _ => .ite (fun h7 => ?_) fun _ => hsame
  · exact yields_handleOfmpCapability h hask (not_not.1 hst) hint
  · rw [not_not] at hst
    have happ := h.not_approved (by rw [hst]; decide) (by rw [hst]; decide)
    obtain ⟨rs, hrs, hrec, hends⟩ := hnames h3 hst
    obtain ⟨res, hres, -⟩ := (safe_readResources_iff h20 hrs hrec hr).2 hends
    unfold Fsm.handleOfmpResources
    rw [hres, ok_bind]
    have hcore : Core { f with resourcesEvent := some res } := h.congr rfl (.inr rfl)
    exact .ok ⟨hcore.advance happ hask hst rfl h.gated nofun fun _ => rfl,
      ⟨rfl, rfl, rfl, rfl, rfl, rfl⟩, rfl⟩
  · rw [not_not] at hst
    have happ := h.not_approved (by rw [hst]; decide) (by rw [hst]; decide)
    have hdata : asInt ((buf.length : ℤ) - 44) = buf.length - 44 :=
      asInt_of_mem (by omega) (by omega)
    have hconfig : Yields (f.handleOfmpConfigUpdate buf) fun f' => ∃ config,
        f' = { f with swmConfig := config } := by
      unfold Fsm.handleOfmpConfigUpdate
      dsimp only
      split_ifs with hneg
      · exact .ok ⟨f.swmConfig, rfl⟩
      rw [u32_of_le (by omega), ok_bind]
      split_ifs
      · exact .ok ⟨f.swmConfig, rfl⟩
      · rw [bytes_of_le (by omega), ok_bind]
        exact .ok ⟨_, rfl⟩
    obtain ⟨f', hf', config, rfl⟩ := hconfig
    rw [hf', ok_bind]
    have hcore : Core { f with swmConfig := config } := h.congr rfl (.inl rfl)
    exact .ok ⟨hcore.advance happ hask hst rfl h.gated nofun nofun,
      ⟨rfl, rfl, rfl, rfl, rfl, rfl⟩, rfl⟩
  · have h24 := herror h7
    unfold handleOfmpError tryAt
    rw [if_pos h24]
    simp (disch := omega) only [u16_of_le, ok_bind]
    exact hsame

/-- A message that was completed, and is not a fragment, is handled within it. -/
theorem yields_completed (h : Core f) (hask : f.asking = none) {n : ℕ} (hw : Handed f.ext buf n)
    (hflat : ofmpType buf ≠ 8) (hint : buf.length < 2 ^ 31)
    (hnames : ofmpType buf = 3 → f.state = .recvMgmtResourcesUpdate →
      TlvsDecodable (buf.drop 20)) {rounds : ℕ} (hr : n < rounds) :
    Yields (f.handleVendor manager rounds buf) fun f' => Core f' ∧ Frame f f' := by
  obtain ⟨rounds, rfl⟩ := Nat.exists_eq_succ_of_ne_zero (show rounds ≠ 0 by omega)
  have hlarge := hw.large
  have hsmall := hw.small
  unfold Fsm.handleVendor
  rw [if_neg (by omega), u32_of_le (by omega), ok_bind, u32_of_le (by omega), ok_bind]
  refine .ite (fun _ => .ok ⟨h, .refl f⟩) fun _ => ?_
  rw [if_neg (by omega), bytes_of_le (by omega), ok_bind, hw.xid]
  unfold resetExtData
  rw [if_neg (not_not.2 rfl), ok_bind, u16_of_le (by omega), ok_bind,
    if_neg (show ¬ field buf 16 2 = 8 from hflat)]
  exact (yields_handleOfmp' h hask (by omega) hint hnames (fun _ => by omega) (by omega)).mono
    fun f' hf' => ⟨hf'.1, hf'.2.1⟩

/-- A vendor message is handled within it, and the fsm keeps its buffer. -/
theorem yields_handleVendor (h : Core f) (hask : f.asking = none) {b : List UInt8}
    (hbuf : f.ext.extDataBuffer = some b) (htype : typeOf buf = 4) (hint : buf.length < 2 ^ 31)
    (hs : Sound f buf) {rounds : ℕ} (hr : buf.length + b.length + 2 ≤ rounds) :
    Yields (f.handleVendor manager rounds buf)
      fun f' => Core f' ∧ Frame f f' ∧ f'.ext.extDataBuffer.isSome := by
  obtain ⟨rounds, rfl⟩ := Nat.exists_eq_succ_of_ne_zero (show rounds ≠ 0 by omega)
  have hsome : f.ext.extDataBuffer.isSome := by rw [hbuf]; rfl
  unfold Fsm.handleVendor
  split_ifs with h16 h20
  · exact .ok ⟨h, .refl f, hsome⟩
  · rw [u32_of_le (by omega), ok_bind, u32_of_le (by omega), ok_bind]
    split_ifs <;> exact .ok ⟨h, .refl f, hsome⟩
  rw [u32_of_le (by omega), ok_bind, u32_of_le (by omega), ok_bind]
  refine .ite (fun _ => .ok ⟨h, .refl f, hsome⟩) fun hhead => ?_
  obtain ⟨hvendor, hsub⟩ := not_or.1 hhead
  have hofmp : IsOfmp buf := ⟨by omega, not_not.1 hvendor, not_not.1 hsub⟩
  rw [bytes_of_le (by omega), ok_bind]
  obtain ⟨c1, hc1, b1, hb1, hle1⟩ := resetExtData_ok hbuf ((buf.drop 4).take 4)
  rw [hc1, ok_bind, u16_of_le (by omega), ok_bind]
  set g : Fsm := { f with ext := c1 } with hg
  have hcore : Core g := h.congr rfl (.inl rfl)
  have hframe : Frame f g := ⟨rfl, rfl, rfl, rfl, rfl, rfl⟩
  refine .ite (fun h8 => ?_) fun h8 => ?_
  · obtain ⟨⟨whole?, c2⟩, hre, hnone, hhanded⟩ := yields_reassemble buf hb1
    have hcompleted : completed f.ext buf = whole? := by
      unfold completed
      rw [hc1, ok_bind, hre]
    rw [show reassemble g.ext buf = .ok (whole?, c2) from hre, ok_bind]
    rcases whole? with _ | whole
    · exact .ok ⟨hcore.congr rfl (.inl rfl), ⟨rfl, rfl, rfl, rfl, rfl, rfl⟩, hnone rfl⟩
    obtain ⟨hflat, hwint, hnames⟩ := hs.whole whole htype hofmp h8 hcompleted
    have hcore2 : Core { g with ext := c2 } := hcore.congr rfl (.inl rfl)
    refine (yields_completed hcore2 hask (hhanded whole rfl).1 hflat hwint hnames (by omega)).bind
      fun f' hf' => .ok ⟨hf'.1.congr rfl (.inl rfl), ?_, rfl⟩
    exact { hf'.2 with }
  · refine (yields_handleOfmp' hcore hask (show 20 ≤ buf.length by omega) hint
      (hs.names htype hofmp) (hs.ofmpError htype hofmp)
      (by omega)).mono fun f' hf' => ⟨hf'.1, hframe.trans hf'.2.1, ?_⟩
    rw [hf'.2.2, hb1]
    rfl

/-! ### Activations -/

/-- What an activation leaves: the invariant, with one action more, which is to block when the
authorisation was asked for. -/
structure Done (f f' : Fsm) : Prop where
  core : Core f'
  timeout : f'.timeout = f.timeout
  ext : f'.ext.extDataBuffer.isSome
  action : ∃ a, f'.actions = a :: f.actions ∧ (f'.asking.isSome → a ≠ .exit)
  activations : f'.activations = f.activations
  fault : f'.fault = f.fault

/-- An activation that ends with an action. -/
theorem Done.of_act (h : Core f') (hframe : Frame f f') (hask : f.asking = none)
    (hext : f'.ext.extDataBuffer.isSome) (a : Action) : Done f (f'.act a) := by
  refine ⟨h.congr rfl (.inl rfl), hframe.timeout, hext, ⟨a, ?_, fun hsome => ?_⟩,
    hframe.activations, hframe.fault⟩
  · show a :: f'.actions = _
    rw [hframe.actions]
  · replace hsome : f'.asking.isSome = true := hsome
    rw [hframe.asking, hask] at hsome
    nomatch hsome

/-- An fsm that is activated: nothing is asked for. -/
structure Ready (f : Fsm) : Prop where
  core : Core f
  asking : f.asking = none
  ext : f.ext.extDataBuffer.isSome

theorem Ready.done (h : Ready f) (a : Action) : Done f (f.act a) :=
  .of_act h.core (.refl f) h.asking h.ext a

theorem done_sendMessage (h : Ready f) (hst : (Fsm.sentState f.state).isSome) :
    Done f (f.sendMessage io) := by
  obtain ⟨next, hnext⟩ := isSome_iff_exists.1 hst
  unfold Fsm.sendMessage
  rw [hnext]
  cases io.sent with
  | again | error => exact h.done _
  | message _ =>
    have hgo : f.switchApproved = false ∧ past next = past f.state := by
      cases hs : f.state <;> rw [hs] at hnext <;>
        first
        | exact absurd hnext.symm (some_ne_none next)
        | (cases hnext
           exact ⟨h.core.not_approved (by rw [hs]; decide) (by rw [hs]; decide), rfl⟩)
    have hframe : Frame f (f.goto next) := ⟨rfl, rfl, rfl, rfl, rfl, rfl⟩
    exact .of_act (h.core.goto hgo.1 h.asking rfl hgo.2) hframe h.asking h.ext _

/-- The states that receive. -/
def Receiving (st : State) : Prop :=
  st = .recvFeaturesReply ∨ st = .recvMgmtCapabilityReply ∨ st = .recvMgmtResourcesUpdate ∨
    st = .recvMgmtConfigUpdate

theorem done_recvMessage (h : Ready f) {b : List UInt8} (hbuf : f.ext.extDataBuffer = some b)
    (hst : Receiving f.state)
    (hmsg : ∀ buf, io.received = .message buf → 8 ≤ buf.length ∧ field buf 2 2 = buf.length ∧
      Sound f buf ∧ buf.length + b.length + 2 ≤ io.rounds) :
    Yields (f.recvMessage manager io) (Done f) := by
  have hsame : ∀ a, Yields (.ok (f.act a)) (Done f) := fun a => .ok (h.done a)
  obtain ⟨hcore, hask, hext⟩ := h
  have happ : f.switchApproved = false := by
    refine hcore.not_approved ?_ ?_ <;>
    rcases hst with hst | hst | hst | hst <;> rw [hst] <;> decide
  have hyield : ∀ {f' : Fsm} (a : Action), Core f' → Frame f f' → f'.ext = f.ext →
      Done f (f'.act a) :=
    fun a hc hf he => .of_act hc hf hask (by rw [he]; exact hext) a
  unfold Fsm.recvMessage
  cases hrec : io.received with
  | again | error => exact hsame _
  | message buf =>
    obtain ⟨h8, hlen, hs, hr⟩ := hmsg buf hrec
    have hlt := field_lt buf 2 2
    dsimp only
    rw [if_neg (by omega), u8_of_le (by omega), ok_bind,
      show field buf 1 1 = typeOf buf from rfl]
    refine .ite (fun h6 => .ite (fun _ => hsame _) fun hst => ?_) fun _ => .ite (fun h4 => ?_)
      fun _ => .ite (fun _ => ?_) fun _ => .ite (fun h1 => ?_) fun _ => hsame _
    · rw [not_not] at hst
      unfold Fsm.handleFeaturesReply
      have hgot : ∀ osf, Core { f with featuresReply := osf } := fun osf =>
        { hcore with features := fun hmem => absurd (hst ▸ hmem) (by decide) }
      split_ifs with h32
      · have hfeatures : Features buf := ⟨h32, hlen, hs.ports h6 hst⟩
        exact .ok (hyield _ ((hgot (some buf)).advance happ hask hst rfl hcore.gated
          (fun _ => ⟨buf, rfl, hfeatures⟩) nofun) ⟨rfl, rfl, rfl, rfl, rfl, rfl⟩ rfl)
      · exact .ok (hyield _ (hgot none) ⟨rfl, rfl, rfl, rfl, rfl, rfl⟩ rfl)
    · refine (yields_handleVendor hcore hask hbuf h4 (by omega) hs hr).bind fun f' hf' => ?_
      exact .ok (.of_act hf'.1 hf'.2.1 hask hf'.2.2 _)
    · unfold Fsm.sendEchoReply
      rw [u16_of_le (by omega), ok_bind, hlen, bytes_of_le (by omega), ok_bind,
        if_neg (by rw [drop_zero, take_length]; omega)]
      exact hsame _
    · unfold Fsm.handleError
      split_ifs with hst
      · exact (hcore.featuresId (by rw [hst]; decide)).bind fun _ _ =>
          .ok (hyield _ (hcore.goto happ hask hst rfl) ⟨rfl, rfl, rfl, rfl, rfl, rfl⟩ rfl)
      · have h12 := hs.error h1 hst
        unfold tryAt
        rw [if_pos h12]
        simp (disch := omega) only [u16_of_le, ok_bind]
        exact hsame _

/-- A complete features reply is read within it. -/
theorem yields_readFeatures {osf : List UInt8} (h : Features osf) :
    Safe (Fsm.readFeatures osf) := by
  have h32 := h.fixed
  have hlt := field_lt osf 2 2
  have hlen := h.framed
  have hsub : subSize osf.length 32 = osf.length - 32 := subSize_of_le (by omega) (by omega)
  unfold Fsm.readFeatures
  rw [u32_of_le (by omega), ok_bind, u8_of_le (by omega), ok_bind, u32_of_le (by omega), ok_bind,
    u32_of_le (by omega), ok_bind, u16_of_le (by omega), ok_bind, hlen, hsub]
  refine (safe_array_iff.2 fun i hi => ?_).bind fun _ _ => .safe
  rw [drop_drop]
  exact safe_port_iff.2 ⟨by rw [length_drop]; omega, by rw [drop_drop]; exact h.names i hi⟩

/-- A registration is noted, after what it needs, and the fsm ends. -/
theorem Ready.register (h : Ready f) (n : Note) (hgated : Gated (n :: f.log)) :
    Done f (f.note n).doExit := by
  obtain ⟨hcore, hask, hext⟩ := h
  have hnoted : Core (f.note n) := ⟨hcore.arrived.cons _, hcore.features, hcore.resources,
    fun happ => ⟨(hcore.approved happ).1, (hcore.approved happ).2.cons _⟩, hcore.asking, hgated⟩
  have hframe : Frame f (f.note n) := ⟨rfl, rfl, rfl, rfl, rfl, rfl⟩
  exact .of_act hnoted hframe hask hext _

theorem done_registerSwitch (h : Ready f) (hst : f.state = .registerSwitch) :
    Yields f.registerSwitch (Done f) := by
  obtain ⟨osf, hosf, hfeatures⟩ := h.core.features (by rw [hst]; decide)
  have h32 := hfeatures.fixed
  have hid : f.featuresId = .ok (field osf 8 8) := by
    unfold Fsm.featuresId
    rw [hosf]
    exact u64_of_le (by omega)
  unfold Fsm.registerSwitch
  rw [hid, ok_bind]
  refine .ite (fun _ => .ok (h.done _)) fun happ => .ite (fun _ => .ok (h.done _)) fun hzero => ?_
  have hlog := (h.core.approved (not_not.1 happ)).2
  rw [hst] at hlog
  dsimp only
  rw [show (f.note (.registeredSwitch (field osf 8 8))).featuresReply = some osf from hosf]
  exact (yields_readFeatures hfeatures).bind fun _ _ =>
    .ok (h.register _ ⟨h.core.gated, hzero, hlog⟩)

theorem done_registerMgmt (h : Ready f) (hst : f.state = .registerMgmt) :
    Yields f.registerMgmt (Done f) := by
  have hres := h.core.resources (by rw [hst]; decide)
  refine .ite (fun _ => .ok (h.done _)) fun happ => .ite (fun _ => .ok (h.done _)) fun hzero => ?_
  have hlog := (h.core.approved (not_not.1 happ)).2
  rw [hst] at hlog
  have hsome : (f.note (.registeredMgmt f.mgmtId)).resourcesEvent.isNone = false := by
    rw [isNone_eq_false_iff]
    exact hres
  dsimp only
  rw [hsome, if_neg Bool.false_ne_true]
  exact .ok (h.register _ ⟨h.core.gated, hzero, hlog⟩)

/-- The authorisation answers, and the fsm goes on to register the connection. -/
theorem Core.answer (h : Core f) {next : State}
    (hnext : (f.state = .checkSwitchAuth ∧ next = .registerSwitch) ∨
      (f.state = .checkMgmtAuth ∧ next = .registerMgmt)) (approved : Bool) :
    Core { (if approved then f.note .approved else f) with
      switchApproved := approved, state := next, asking := none } := by
  have hpast : past next = past f.state := by
    rcases hnext with ⟨hst, rfl⟩ | ⟨hst, rfl⟩ <;> rw [hst] <;> rfl
  have hreg : next = .registerSwitch ∨ next = .registerMgmt := hnext.imp And.right And.right
  have hnone : ∀ st, (none : Option State) ≠ some st := fun st => nofun
  cases approved with
  | true =>
    refine ⟨?_, ?_, ?_, fun _ => ⟨hreg, ?_⟩, fun st hst => absurd hst (hnone st), h.gated⟩
    · exact hpast ▸ h.arrived.cons _
    · exact hpast ▸ h.features
    · exact hpast ▸ h.resources
    · exact hpast ▸ h.arrived.cons_cons _
  | false =>
    refine ⟨?_, ?_, ?_, nofun, fun st hst => absurd hst (hnone st), h.gated⟩
    · exact hpast ▸ h.arrived
    · exact hpast ▸ h.features
    · exact hpast ▸ h.resources

/-- A connection that was authorised is registered, or closed. -/
theorem done_run_register (h : Ready f)
    (hst : f.state = .registerSwitch ∨ f.state = .registerMgmt) (rounds : ℕ) :
    Yields (f.run manager io (rounds + 1)) (Done f) := by
  unfold Fsm.run
  split_ifs
  · exact .ok (h.done _)
  rcases hst with hst | hst <;> rw [hst]
  · exact done_registerSwitch h hst
  · exact done_registerMgmt h hst

theorem done_checkSwitchAuth (h : Ready f) {next : State}
    (hnext : (f.state = .checkSwitchAuth ∧ next = .registerSwitch) ∨
      (f.state = .checkMgmtAuth ∧ next = .registerMgmt)) (rounds : ℕ) :
    Yields (f.checkSwitchAuth io next (Fsm.run manager io (rounds + 1))) (Done f) := by
  obtain ⟨hcore, hask, hext⟩ := h
  refine .ite (fun _ => ?_) fun _ => ?_
  · set g := ({ f with switchApproved := true }.note .approved).goto next with hg
    have hready : Ready g :=
      ⟨(hcore.answer hnext true).congr (congrArg (_, _, _, _, ·) hask) (.inl rfl), hask, hext⟩
    exact (done_run_register hready (hnext.imp And.right And.right) rounds).mono fun f' hf' =>
      { hf' with }
  obtain ⟨osf, hosf, -⟩ := hcore.features (by
    rcases hnext with ⟨hst, -⟩ | ⟨hst, -⟩ <;> rw [hst] <;> decide)
  have hsome : ¬ f.featuresReply.isNone = true := by
    rw [hosf]
    exact Bool.false_ne_true
  rw [if_neg hsome]
  refine .ok ⟨{ hcore with asking := fun st hst => ?_ }, rfl, hext,
    ⟨.block, rfl, fun _ => Action.noConfusion⟩, rfl, rfl⟩
  cases hst
  exact hnext

/-- What a message that is received must meet: it is framed by its length, the fsm finds in it
what it relies on, and there are rounds enough to decode it. -/
structure Receivable (f : Fsm) (io : Io) (buf : List UInt8) : Prop where
  header : 8 ≤ buf.length
  framed : field buf 2 2 = buf.length
  sound : Sound f buf
  rounds : ∀ b, f.ext.extDataBuffer = some b → buf.length + b.length + 2 ≤ io.rounds

/-- **An activation does one action.** -/
theorem done_run (h : Ready f)
    (hmsg : ∀ buf, io.received = .message buf → Receivable f io buf) (rounds : ℕ) :
    Yields (f.run manager io (rounds + 2)) (Done f) := by
  obtain ⟨b, hbuf⟩ := isSome_iff_exists.1 h.ext
  have hrecv : Receiving f.state → Yields (f.recvMessage manager io) (Done f) := fun hst =>
    done_recvMessage h hbuf hst fun buf hrec =>
      have hm := hmsg buf hrec
      ⟨hm.header, hm.framed, hm.sound, hm.rounds b hbuf⟩
  have hsend : (Fsm.sentState f.state).isSome → Yields (.ok (f.sendMessage io)) (Done f) :=
    fun hst => .ok (done_sendMessage h hst)
  unfold Fsm.run
  split_ifs
  · exact .ok (h.done _)
  cases hst : f.state with
  | sendFeaturesReq => exact hsend (by rw [hst]; rfl)
  | sendConfig => exact hsend (by rw [hst]; rfl)
  | recvFeaturesReply => exact hrecv (.inl hst)
  | sendMgmtCapabilityReq => exact hsend (by rw [hst]; rfl)
  | recvMgmtCapabilityReply => exact hrecv (.inr (.inl hst))
  | sendMgmtResourcesReq => exact hsend (by rw [hst]; rfl)
  | recvMgmtResourcesUpdate => exact hrecv (.inr (.inr (.inl hst)))
  | sendMgmtConfigReq => exact hsend (by rw [hst]; rfl)
  | recvMgmtConfigUpdate => exact hrecv (.inr (.inr (.inr hst)))
  | checkSwitchAuth => exact done_checkSwitchAuth h (.inl ⟨hst, rfl⟩) rounds
  | checkMgmtAuth => exact done_checkSwitchAuth h (.inr ⟨hst, rfl⟩) rounds
  | registerSwitch => exact done_registerSwitch h hst
  | registerMgmt => exact done_registerMgmt h hst

/-! ### Runs -/

/-- What holds between the steps. -/
structure Inv (timeout : ℕ) (f : Fsm) : Prop where
  core : Core f
  timeout : f.timeout = timeout
  ext : f.ext.extDataBuffer.isSome
  fault : f.fault = none
  actions : f.actions.length = f.activations
  once : f.actions.count .exit ≤ 1
  asking : f.asking.isSome → .exit ∉ f.actions

theorem inv_init (timeout : ℕ) : Inv timeout (Fsm.init timeout) where
  core := ⟨nil_sublist _, fun h => absurd h not_mem_nil,
    fun h => absurd h not_mem_nil, fun h => absurd h Bool.false_ne_true,
    fun _ h => absurd h nofun, True.intro⟩
  timeout := rfl
  ext := rfl
  fault := rfl
  actions := rfl
  once := Nat.zero_le _
  asking := nofun

/-- The condition on a step: a message that is received is sound, and there are rounds. -/
def Heeds (f : Fsm) : Act → Prop
  | .activate io => 2 ≤ io.rounds ∧ ∀ buf, io.received = .message buf → Receivable f io buf
  | .answer _ => True

/-- A step keeps the invariant. -/
theorem Inv.step {timeout : ℕ} {a : Act} (h : Inv timeout f) (hheeds : Heeds f a)
    (hf' : f.step manager a = some f') : Inv timeout f' := by
  cases a with
  | activate io =>
    obtain ⟨hrounds, hmsg⟩ := hheeds
    unfold Fsm.step at hf'
    dsimp only at hf'
    split_ifs at hf' with hidle
    obtain ⟨hexit, hask, -⟩ : .exit ∉ f.actions ∧ ¬ f.asking.isSome = true ∧
        ¬ f.fault.isSome = true := ⟨fun hm => hidle (.inl hm),
      fun hm => hidle (.inr (.inl hm)), fun hm => hidle (.inr (.inr hm))⟩
    obtain ⟨rounds, hr⟩ := Nat.exists_eq_add_of_le' hrounds
    obtain ⟨g, hg, hdone⟩ : Yields (f.run manager io (rounds + 2)) (Done f) :=
      done_run ⟨h.core, not_isSome_iff_eq_none.1 hask, h.ext⟩ hmsg rounds
    rw [← hr] at hg
    rw [hg] at hf'
    cases hf'
    obtain ⟨a, hactions, hblock⟩ := hdone.action
    have hzero : f.actions.count .exit = 0 := count_eq_zero.2 hexit
    refine ⟨hdone.core.congr rfl (.inl rfl), hdone.timeout.trans h.timeout,
      hdone.ext, hdone.fault.trans h.fault, ?_, ?_, fun hsome => ?_⟩
    · rw [hactions, hdone.activations, length_cons, h.actions]
    · rw [hactions, count_cons, hzero]
      split_ifs <;> omega
    · rw [hactions, mem_cons, not_or]
      exact ⟨(hblock hsome).symm, hexit⟩
  | answer approved =>
    obtain ⟨next, hnext, rfl⟩ := map_eq_some_iff.1 hf'
    have hcore := h.core.answer (h.core.asking next hnext) approved
    cases approved <;> exact { h with core := hcore, asking := nofun }

/-- An activation after the timeout ends the fsm. -/
theorem exit_of_timeout (hrounds : 2 ≤ io.rounds) (hlate : f.timeout < io.now (io.rounds - 1))
    (hf' : f.step manager (.activate io) = some f') : .exit ∈ f'.actions := by
  obtain ⟨rounds, hr⟩ := Nat.exists_eq_add_of_le' hrounds
  unfold Fsm.step at hf'
  dsimp only at hf'
  split_ifs at hf'
  rw [hr] at hf' hlate
  unfold Fsm.run at hf'
  rw [if_pos (show f.timeout < io.now (rounds + 1) from hlate)] at hf'
  cases hf'
  exact mem_cons_self

theorem Gated.of_append {newer older : List Note} (h : Gated (newer ++ older)) : Gated older := by
  induction newer with
  | nil => exact h
  | cons n newer ih =>
    refine ih ?_
    cases n with
    | registeredSwitch | registeredMgmt => exact h.1
    | _ => exact h

/-- **The handshake is robust and gated.**  For any messages that the fsm can rely on, answers and
timing, whatever `manager` says of the capabilities: nothing outside a message is read and no null
pointer followed; every activation did one action; the fsm ended at most once, and ends when it is
activated after its timeout; and it registers a connection only with an id that is not zero, after
a complete features reply and the approval, and a management channel only after capability,
resources and config messages in that order. -/
theorem handshake_gated {timeout : ℕ} {acts : List Act}
    (hheeds : Along (Fsm.step manager) Heeds (Fsm.init timeout) acts)
    (hrun : run (Fsm.step manager) (Fsm.init timeout) acts = some f) :
    f.fault = none ∧ f.actions.length = f.activations ∧ f.actions.count .exit ≤ 1 ∧
    (∀ io f', 2 ≤ io.rounds → timeout < io.now (io.rounds - 1) →
      f.step manager (.activate io) = some f' → .exit ∈ f'.actions) ∧
    (∀ newer older d, f.log = newer ++ .registeredSwitch d :: older →
      d ≠ 0 ∧ [.approved, .features].Sublist older) ∧
    ∀ newer older d, f.log = newer ++ .registeredMgmt d :: older →
      d ≠ 0 ∧ [.approved, .config, .resources, .capability, .features].Sublist older := by
  have h : Inv timeout f := run_invariant_of_along
    (fun _ _ _ h ha hs => Inv.step h ha hs) (inv_init timeout) hheeds hrun
  refine ⟨h.fault, h.actions, h.once, fun io f' hrounds hlate => ?_, fun newer older d hlog => ?_,
    fun newer older d hlog => ?_⟩
  · exact exit_of_timeout hrounds (h.timeout ▸ hlate)
  all_goals
    have hg := h.core.gated
    rw [hlog] at hg
    exact hg.of_append.2

/-- An activation in which sends succeed and nothing is received. -/
def quiet : Io where
  now := fun _ => 0
  auth := true
  sent := .message []
  received := .again
  rounds := 64

/-- The features reply of a switch without ports whose datapath id is 5. -/
def featuresOfFive : List UInt8 :=
  [1, 6, 0, 32, 0, 0, 0, 0, 0, 0, 0, 0, 0, 0, 0, 5] ++ List.replicate 16 0

/-- A short error message. -/
def shortError : List UInt8 := [1, 1, 0, 8, 0, 0, 0, 0]

/-- A handshake with a switch that answers the capability request with an error. -/
def handshakeOfFive : List Act :=
  [.activate quiet, .activate quiet, .activate { quiet with received := .message featuresOfFive },
    .activate quiet, .activate { quiet with received := .message shortError }, .activate quiet,
    .answer true, .activate quiet]

/-- The hypotheses of `handshake_gated` are satisfiable: `handshakeOfFive` meets the condition, and
registers the switch. -/
theorem handshake_gated_five : ∃ f,
    run (Fsm.step fun _ => false) (Fsm.init 10) handshakeOfFive = some f ∧
    f.log = [.registeredSwitch 5, .approved, .features] ∧ f.fault = none ∧
    f.actions.length = 7 := by
  have hquiet : ∀ f, Heeds f (.activate quiet) := fun f =>
    ⟨by decide, fun buf h => Received.noConfusion h⟩
  have hmessage : ∀ {f : Fsm} {buf : List UInt8}, 8 ≤ buf.length → field buf 2 2 = buf.length →
      Sound f buf → (∀ b, f.ext.extDataBuffer = some b → buf.length + b.length + 2 ≤ 64) →
      Heeds f (.activate { quiet with received := .message buf }) := by
    intro f buf h8 hlen hs hr
    refine ⟨show 2 ≤ 64 by decide, fun buf' h => ?_⟩
    obtain rfl := Received.message.inj h
    exact ⟨h8, hlen, hs, hr⟩
  have hheeds : Along (Fsm.step fun _ => false) Heeds (Fsm.init 10) handshakeOfFive := by
    refine .cons (hquiet _) rfl (.cons (hquiet _) rfl (.cons ?_ rfl (.cons (hquiet _) rfl
      (.cons ?_ rfl (.cons (hquiet _) rfl (.cons True.intro rfl (.cons (hquiet _) rfl
        True.intro)))))))
    · refine hmessage (by decide) (by decide) ⟨?_, ?_, ?_, ?_, ?_⟩ ?_
      · exact fun h => absurd h (by decide)
      · exact fun _ _ i hi => absurd hi (Nat.not_lt_zero i)
      · exact fun h => absurd h (by decide)
      · exact fun h => absurd h (by decide)
      · exact fun _ h => absurd h (by decide)
      · decide
    · refine hmessage (by decide) (by decide) ⟨?_, ?_, ?_, ?_, ?_⟩ ?_
      · exact fun _ hst => absurd rfl hst
      · exact fun h => absurd h (by decide)
      · exact fun h => absurd h (by decide)
      · exact fun h => absurd h (by decide)
      · exact fun _ h => absurd h (by decide)
      · decide
  refine ⟨_, rfl, rfl, ?_⟩
  have h := handshake_gated hheeds rfl
  exact ⟨h.1, h.2.1⟩

/-- **A short error message is read through a null pointer.**  An error message of 8 bytes, framed
by its length, that comes before the features reply. -/
theorem short_error_faults : 8 ≤ shortError.length ∧ field shortError 2 2 = shortError.length ∧
    ∃ f, run (Fsm.step fun _ => false) (Fsm.init 10) [.activate quiet, .activate quiet,
      .activate { quiet with received := .message shortError }] = some f ∧ f.fault = some .null :=
  ⟨by decide, by decide, _, rfl, rfl⟩

end NoxClassic.Nox.Handshake
