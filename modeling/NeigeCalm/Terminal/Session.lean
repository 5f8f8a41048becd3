import Mathlib.Algebra.Group.Nat.Defs
import Mathlib.Data.List.Basic

/-!
# Terminal sessions and the owner registry

The protocol state machine of one attached client.  Every connection to a terminal is a
`TerminalSessionState`; all of them share one `OwnerRegistry`, which issues leases.  A client id
names a browser, not a connection, so two connections are told apart by the generation of the
lease alone.  A frame is read under the registry's lock and answered by a list of effects that
the surrounding shell enacts.
-/

namespace NeigeCalm.Terminal

abbrev Uuid := BitVec 128

abbrev Bytes := List UInt8

abbrev Rgb := UInt8 × UInt8 × UInt8

def protocolVersion : Nat := 4

/-! ## Wire values -/

inductive Role where
  | owner
  | observer
deriving DecidableEq

inductive RenderEncoding where
  | vt
deriving DecidableEq

inductive InitialScrollback where
  | none
  | all
  | lines (count : Nat)
deriving DecidableEq

structure PtySize where
  cols : Nat
  rows : Nat
  pixelWidth : Option Nat
  pixelHeight : Option Nat
deriving DecidableEq

structure ClientCapabilities where
  renderEncodings : List RenderEncoding
  supportsScrollback : Bool
  supportsSixel : Bool
  supportsImages : Bool
  kernelOriginatedInput : Bool
deriving DecidableEq

structure RenderSnapshot where
  renderRev : Nat
  ptySeq : Nat
  cols : Nat
  rows : Nat
  encoding : RenderEncoding
  data : Bytes
  scrollback : Option Bytes
deriving DecidableEq

structure HistoryGap where
  requestedRenderRev : Option Nat
  requestedPtySeq : Option Nat
  earliestRenderRev : Nat
  earliestPtySeq : Nat
  requiresSnapshot : Bool
deriving DecidableEq

inductive ProtocolErrorCode where
  | unsupportedVersion
  | notOwner
  | badSequence
  | snapshotMissing
  | unsupportedEncoding
  | badHandshake
deriving DecidableEq

structure ClientHello where
  protocolVersion : Nat
  terminalId : String
  clientId : Uuid
  initialScrollback : InitialScrollback
  roleHint : Option Role
  capabilities : ClientCapabilities
deriving DecidableEq

inductive ClientMsg where
  | clientHello (hello : ClientHello)
  | input (data : Bytes) (inputSeq : Nat)
  | resizeCommit (epoch cols rows : Nat)
  | ownerClaim
  | ownerRelease
  | renderAck (renderRev : Nat) (ptySeq : Option Nat)
  | kill
  | answerQuestion
  | terminalThemeUpdate (fg bg : Rgb)
deriving DecidableEq

structure ServerHello where
  protocolVersion : Nat
  terminalId : String
  sessionId : Uuid
  clientRole : Role
  ownerClientId : Option Uuid
  ptySize : PtySize
  ptySeqHead : Nat
  ptySeqTail : Nat
  renderRev : Nat
  snapshot : RenderSnapshot
  historyGap : Option HistoryGap
  isChildReady : Bool
deriving DecidableEq

inductive DaemonMsg where
  | serverHello (hello : ServerHello)
  | resizeApplied (epoch ptySeq renderRev cols rows : Nat)
  | ownerChanged (ownerClientId : Option Uuid)
  | terminalExited (code : Option Int) (ptySeq renderRev : Nat)
  | protocolError (code : ProtocolErrorCode) (message : String) (expectedVersion : Option Nat)
  | inputAck (inputSeq : Nat)
deriving DecidableEq

inductive Effect where
  | sendToClient (msg : DaemonMsg)
  | broadcast (msg : DaemonMsg)
  | resizePty (cols rows : Nat)
  | writeToPty (data : Bytes) (inputSeq : Nat)
  | killChild
  | sendProtocolError (code : ProtocolErrorCode) (message : String)
      (expectedVersion : Option Nat)
  | closeConnection
  | assignOwner (owner : Option Uuid)
  | broadcastOwnerChanged (owner : Option Uuid)
  | terminalThemeUpdate (fg bg : Rgb)
deriving DecidableEq

/-! ## The owner registry -/

/-- Server-issued ownership identity. -/
structure OwnerLease where
  clientId : Uuid
  generation : Nat
deriving DecidableEq

/-- One registry per terminal.  `generation` is the last one issued, a `u64`; the current owner's
lease carries a generation that was issued. -/
structure OwnerRegistry where
  owner : Option OwnerLease
  generation : Nat
  issued : ∀ lease, owner = some lease → lease.generation ≤ generation
  bounded : generation < 2 ^ 64

namespace OwnerRegistry

def new : OwnerRegistry where
  owner := none
  generation := 0
  issued := by simp
  bounded := by decide

def currentOwner (registry : OwnerRegistry) : Option Uuid := registry.owner.map OwnerLease.clientId

def isCurrent (registry : OwnerRegistry) (lease : OwnerLease) : Bool :=
  registry.owner = some lease

/-- The lease a claim issues next, unless the generations are exhausted. -/
def claim (registry : OwnerRegistry) (clientId : Uuid) : Option (OwnerLease × OwnerRegistry) :=
  if room : registry.generation + 1 < 2 ^ 64 then
    let lease : OwnerLease := { clientId, generation := registry.generation + 1 }
    some (lease,
      { owner := some lease
        generation := registry.generation + 1
        issued := by rintro _ ⟨⟩; exact Nat.le_refl _
        bounded := room })
  else none

/-- The first attachment becomes owner unless it asked to observe. -/
def onAttach (registry : OwnerRegistry) (clientId : Uuid) (roleHint : Option Role) :
    Role × OwnerRegistry :=
  if registry.owner.isNone && roleHint != some .observer then
    match registry.claim clientId with
    | some (_, claimed) => (.owner, claimed)
    | none => (.observer, registry)
  else (.observer, registry)

def release (registry : OwnerRegistry) (lease : OwnerLease) : Bool × OwnerRegistry :=
  if registry.owner = some lease then
    (true, { registry with owner := none, issued := by simp })
  else (false, registry)

end OwnerRegistry

/-! ## One connection -/

/-- The byte ring that seeds a client's first snapshot: its buffered chunks. -/
structure ByteRing where
  chunks : List Bytes
deriving DecidableEq

def ByteRing.snapshot (ring : ByteRing) : Bytes := ring.chunks.flatten

/-- What the shell threads through `onClientFrame`.  `quote` is how an error message shows a
string (`{:?}`). -/
structure SessionContext where
  terminalId : String
  sessionId : Uuid
  ptySize : PtySize
  ptySeqHead : Nat
  ptySeqTail : Nat
  renderRev : Nat
  isChildReady : Bool
  currentDefaultFg : Option Rgb
  currentDefaultBg : Option Rgb
  quote : String → String

structure TerminalSessionState where
  attached : Bool
  clientId : Option Uuid
  role : Option Role
  ownerLease : Option OwnerLease
  resizeEpoch : Nat
  lastRenderAckedRev : Option Nat
  capabilities : Option ClientCapabilities
deriving DecidableEq

inductive InputPermission where
  | owner (lease : OwnerLease)
  | kernel
  | denied
deriving DecidableEq

/-- What one frame leaves behind. -/
structure Handled where
  state : TerminalSessionState
  registry : OwnerRegistry
  effects : List Effect

def inputRequiresOwnerRole : String :=
  "Input requires owner role or kernel_originated_input capability"

def notOwnerError (message : String) : Effect := .sendProtocolError .notOwner message none

namespace TerminalSessionState

def new : TerminalSessionState where
  attached := false
  clientId := none
  role := none
  ownerLease := none
  resizeEpoch := 0
  lastRenderAckedRev := none
  capabilities := none

/-- The capability that lets a client type without being the owner. -/
def kernelInput (state : TerminalSessionState) : Bool :=
  state.capabilities.any ClientCapabilities.kernelOriginatedInput

def inputPermission (state : TerminalSessionState) : InputPermission :=
  match state.ownerLease with
  | some lease => .owner lease
  | none => if state.kernelInput then .kernel else .denied

/-- Release only this connection's lease, also on transport teardown. -/
def releaseOwner (state : TerminalSessionState) (registry : OwnerRegistry) :
    Bool × TerminalSessionState × OwnerRegistry :=
  let (released, registry') :=
    match state.ownerLease with
    | some lease => registry.release lease
    | none => (false, registry)
  (released,
    { state with
      ownerLease := none
      role := if state.attached then some .observer else state.role },
    registry')

def refuseHello (state : TerminalSessionState) (registry : OwnerRegistry)
    (code : ProtocolErrorCode) (message : String) : Handled where
  state := state
  registry := registry
  effects := [.sendProtocolError code message (some protocolVersion), .closeConnection]

/-- The handshake's answer: a snapshot of the terminal as it stands. -/
def serverHello (hello : ClientHello) (role : Role) (registry : OwnerRegistry)
    (buffer : ByteRing) (ctx : SessionContext) : ServerHello where
  protocolVersion := protocolVersion
  terminalId := hello.terminalId
  sessionId := ctx.sessionId
  clientRole := role
  ownerClientId := registry.currentOwner
  ptySize := ctx.ptySize
  ptySeqHead := ctx.ptySeqHead
  ptySeqTail := ctx.ptySeqTail
  renderRev := ctx.renderRev
  snapshot :=
    { renderRev := ctx.renderRev
      ptySeq := ctx.ptySeqTail
      cols := ctx.ptySize.cols
      rows := ctx.ptySize.rows
      encoding := .vt
      data := buffer.snapshot
      scrollback :=
        match hello.initialScrollback with
        | .none => none
        | .all => some buffer.snapshot
        | .lines _ => some buffer.snapshot }
  historyGap := none
  isChildReady := ctx.isChildReady

def processHello (state : TerminalSessionState) (msg : ClientMsg) (buffer : ByteRing)
    (registry : OwnerRegistry) (ctx : SessionContext) : Handled :=
  match msg with
  | .clientHello hello =>
    if hello.protocolVersion ≠ protocolVersion then
      state.refuseHello registry .unsupportedVersion
        ("protocol_version " ++ toString hello.protocolVersion ++ " != " ++
          toString protocolVersion)
    else if hello.terminalId ≠ ctx.terminalId then
      state.refuseHello registry .badHandshake
        ("terminal_id mismatch: client " ++ ctx.quote hello.terminalId ++ " vs daemon " ++
          ctx.quote ctx.terminalId)
    else if RenderEncoding.vt ∉ hello.capabilities.renderEncodings then
      state.refuseHello registry .unsupportedEncoding "client capabilities do not include Vt"
    else
      let (role, registry') := registry.onAttach hello.clientId hello.roleHint
      { state :=
          { state with
            attached := true
            clientId := some hello.clientId
            role := some role
            ownerLease := if role = .owner then registry'.owner else none
            capabilities := some hello.capabilities }
        registry := registry'
        effects := [.sendToClient (.serverHello (serverHello hello role registry' buffer ctx))] }
  | _ => state.refuseHello registry .badHandshake "expected ClientHello as first message"

/-- A cached lease that is no longer the registry's is dropped, and the role with it. -/
def demote (state : TerminalSessionState) (registry : OwnerRegistry) : TerminalSessionState :=
  if state.ownerLease.isSome ∧ state.ownerLease ≠ registry.owner then
    { state with ownerLease := none, role := some .observer }
  else state

/-- A frame of an attached client, after the demotion of a stale lease. -/
def processFrame (state : TerminalSessionState) (msg : ClientMsg) (registry : OwnerRegistry)
    (ctx : SessionContext) : Handled :=
  match msg with
  | .input data inputSeq =>
    if state.role = some .owner ∨ state.kernelInput then
      { state, registry, effects := [.writeToPty data inputSeq] }
    else { state, registry, effects := [notOwnerError inputRequiresOwnerRole] }
  | .resizeCommit epoch cols rows =>
    if state.role ≠ some .owner then
      { state, registry, effects := [notOwnerError "ResizeCommit requires owner role"] }
    else if epoch ≤ state.resizeEpoch then { state, registry, effects := [] }
    else
      { state := { state with resizeEpoch := epoch }
        registry
        effects :=
          [.resizePty cols rows,
            .broadcast (.resizeApplied epoch ctx.ptySeqTail ctx.renderRev cols rows)] }
  | .ownerClaim =>
    match state.clientId with
    | none => { state, registry, effects := [] }
    | some clientId =>
      match registry.claim clientId with
      | none =>
        { state
          registry
          effects :=
            [.sendProtocolError .badSequence "terminal owner lease generation exhausted" none] }
      | some (lease, registry') =>
        { state := { state with ownerLease := some lease, role := some .owner }
          registry := registry'
          effects := [.assignOwner (some clientId), .broadcastOwnerChanged (some clientId)] }
  | .ownerRelease =>
    let (released, state', registry') := state.releaseOwner registry
    { state := state'
      registry := registry'
      effects := if released then [.assignOwner none, .broadcastOwnerChanged none] else [] }
  | .renderAck renderRev _ =>
    { state := { state with lastRenderAckedRev := some renderRev }, registry, effects := [] }
  | .kill =>
    if state.role = some .owner then { state, registry, effects := [.killChild] }
    else { state, registry, effects := [notOwnerError "Kill requires owner role"] }
  | .clientHello _ =>
    { state
      registry
      effects :=
        [.sendProtocolError .badHandshake "ClientHello already received" (some protocolVersion),
          .closeConnection] }
  | .terminalThemeUpdate fg bg =>
    -- suppressed before the role is looked at: an unchanged theme has no effect to authorise
    if ctx.currentDefaultFg = some fg ∧ ctx.currentDefaultBg = some bg then
      { state, registry, effects := [] }
    else if state.role ≠ some .owner ∧ ¬state.kernelInput then
      { state
        registry
        effects :=
          [notOwnerError
            "TerminalThemeUpdate requires owner role or kernel_originated_input capability"] }
    else { state, registry, effects := [.terminalThemeUpdate fg bg] }
  | .answerQuestion => { state, registry, effects := [] }

/-- One incoming client frame.  The first one must be a `ClientHello`. -/
def onClientFrame (state : TerminalSessionState) (msg : ClientMsg) (buffer : ByteRing)
    (registry : OwnerRegistry) (ctx : SessionContext) : Handled :=
  if state.attached then (state.demote registry).processFrame msg registry ctx
  else state.processHello msg buffer registry ctx

/-! ## What a frame does -/

/-- The role is only a cached copy: an owner is attached and caches a lease. -/
def Coherent (state : TerminalSessionState) : Prop :=
  state.role = some .owner → state.attached ∧ state.ownerLease.isSome

theorem coherent_new : new.Coherent := by simp [Coherent, new]

/-- What a frame or a release does to a connection's lease and to the registry. -/
inductive Moved (state : TerminalSessionState) (registry : OwnerRegistry)
    (after : TerminalSessionState) (registry' : OwnerRegistry) : Prop
  | kept : registry' = registry → after.ownerLease = none ∨ after.ownerLease = state.ownerLease →
      Moved state registry after registry'
  | granted (lease : OwnerLease) : registry'.owner = some lease →
      lease.generation = registry.generation + 1 →
      registry'.generation = registry.generation + 1 → after.ownerLease = some lease →
      Moved state registry after registry'
  | released (lease : OwnerLease) : state.ownerLease = some lease → registry.owner = some lease →
      registry'.owner = none → registry'.generation = registry.generation →
      after.ownerLease = none → Moved state registry after registry'

end TerminalSessionState

theorem OwnerRegistry.claim_eq_some {registry registry' : OwnerRegistry}
    (claimed : registry.claim clientId = some (lease, registry')) :
    registry'.owner = some lease ∧ lease.generation = registry.generation + 1 ∧
      registry'.generation = registry.generation + 1 := by
  unfold claim at claimed
  split at claimed
  · cases claimed
    exact ⟨rfl, rfl, rfl⟩
  · cases claimed

/-- An attachment claims only where there is no owner, and otherwise changes nothing. -/
theorem OwnerRegistry.onAttach_cases (registry : OwnerRegistry) (clientId : Uuid)
    (roleHint : Option Role) :
    registry.onAttach clientId roleHint = (.observer, registry) ∨
      ∃ lease claimed, registry.owner = none ∧ registry.claim clientId = some (lease, claimed) ∧
        registry.onAttach clientId roleHint = (.owner, claimed) := by
  unfold onAttach
  split
  · rename_i free
    cases claimed : registry.claim clientId with
    | none => exact .inl rfl
    | some issued =>
      simp only [Bool.and_eq_true, Option.isNone_iff_eq_none] at free
      exact .inr ⟨issued.1, issued.2, free.1, rfl, rfl⟩
  · exact .inl rfl

namespace TerminalSessionState

variable {state : TerminalSessionState}

theorem Coherent.demote (coherent : state.Coherent) : (state.demote registry).Coherent := by
  unfold TerminalSessionState.demote
  split
  · intro isOwner
    cases isOwner
  · exact coherent

@[simp] theorem demote_attached : (state.demote registry).attached = state.attached := by
  unfold demote
  split <;> rfl

@[simp] theorem demote_kernelInput : (state.demote registry).kernelInput = state.kernelInput := by
  unfold demote
  split <;> rfl

@[simp] theorem demote_resizeEpoch : (state.demote registry).resizeEpoch = state.resizeEpoch := by
  unfold demote
  split <;> rfl

/-- The lease left after the demotion is the one cached before it, and it is current. -/
theorem demote_ownerLease (left : (state.demote registry).ownerLease = some lease) :
    state.ownerLease = some lease ∧ registry.owner = some lease := by
  unfold demote at left
  split at left
  · cases left
  · rename_i current
    refine ⟨left, ?_⟩
    by_contra stale
    exact current ⟨by simp [left], fun same => stale (same ▸ left)⟩

theorem demote_kept : (state.demote registry).ownerLease = none ∨
    (state.demote registry).ownerLease = state.ownerLease := by
  unfold demote
  split
  · exact .inl rfl
  · exact .inr rfl

theorem releaseOwner_moved :
    state.Moved registry (state.releaseOwner registry).2.1 (state.releaseOwner registry).2.2 := by
  cases held : state.ownerLease with
  | none =>
    refine .kept ?_ (.inl ?_) <;> simp [releaseOwner, held]
  | some lease =>
    by_cases current : registry.owner = some lease
    · refine .released lease held current ?_ ?_ ?_ <;>
        simp [releaseOwner, held, OwnerRegistry.release, current]
    · refine .kept ?_ (.inl ?_) <;> simp [releaseOwner, held, OwnerRegistry.release, current]

theorem Coherent.releaseOwner (coherent : state.Coherent) :
    (state.releaseOwner registry).2.1.Coherent := by
  intro isOwner
  simp only [TerminalSessionState.releaseOwner] at isOwner
  split at isOwner
  · cases isOwner
  · rename_i detached
    exact absurd (coherent isOwner).1 detached

/-- A demotion before the frame is part of the frame. -/
theorem Moved.of_demote (moved : (state.demote registry).Moved registry after registry') :
    state.Moved registry after registry' := by
  cases moved with
  | kept same lease =>
    refine .kept same ?_
    rcases lease with gone | cached
    · exact .inl gone
    · rw [cached]
      exact demote_kept
  | granted lease owner fresh count cached => exact .granted lease owner fresh count cached
  | released lease held owner free count gone =>
    exact .released lease (demote_ownerLease held).1 owner free count gone

end TerminalSessionState

end NeigeCalm.Terminal
