import NeigeCalm.Library.Machine
import NeigeCalm.Terminal.Session

/-!
# Only the lease holder controls a terminal

Any number of connections read frames and are torn down in any order, over one registry.  A
connection finds out that its lease was taken only at its next frame; until then several
connections cache a lease and the role of an owner.  The generations keep them apart: a lease is
issued once, so the registry's lease is cached by one connection at most, and every effect an
owner is needed for comes from that connection.
-/

namespace NeigeCalm.Terminal

open Library List Machine Effect TerminalSessionState
open OwnerRegistry (claim_eq_some owner)

namespace Effect

/-- The effects only an owner has. -/
def steers : Effect → Bool
  | .resizePty _ _ => true
  | .killChild => true
  | _ => false

def resizes : Effect → Bool
  | .resizePty _ _ => true
  | _ => false

/-- The effects of an owner or of a client with kernel-originated input. -/
def types : Effect → Bool
  | .writeToPty _ _ => true
  | .terminalThemeUpdate _ _ => true
  | _ => false

/-- Effects that neither steer the terminal nor type into it. -/
def Inert (effects : List Effect) : Prop :=
  ∀ effect ∈ effects, effect.steers = false ∧ effect.types = false

@[simp] theorem inert_nil : Inert [] := by simp [Inert]

@[simp] theorem inert_cons :
    Inert (effect :: effects) ↔ (effect.steers = false ∧ effect.types = false) ∧ Inert effects :=
  forall_mem_cons

end Effect

/-- A first frame that attaches the connection. -/
def ClientMsg.ValidHello (msg : ClientMsg) (ctx : SessionContext) : Prop :=
  ∃ hello, msg = .clientHello hello ∧ hello.protocolVersion = protocolVersion ∧
    hello.terminalId = ctx.terminalId ∧ RenderEncoding.vt ∈ hello.capabilities.renderEncodings

namespace TerminalSessionState

variable (state : TerminalSessionState) (msg : ClientMsg) (buffer : ByteRing)
  (registry : OwnerRegistry) (ctx : SessionContext)

/-- What a first frame does: it is refused, or it attaches the connection, as the owner only
where there was none. -/
inductive Greeted : Handled → Prop
  | refused (code : ProtocolErrorCode) (message : String) :
      Greeted (state.refuseHello registry code message)
  | observing (hello : ClientHello) : msg.ValidHello ctx →
      Greeted
        { state :=
            { state with
              attached := true
              clientId := some hello.clientId
              role := some .observer
              ownerLease := none
              capabilities := some hello.capabilities }
          registry
          effects := [.sendToClient (.serverHello
            (serverHello hello .observer registry buffer ctx))] }
  | owning (hello : ClientHello) (lease : OwnerLease) (claimed : OwnerRegistry) :
      msg.ValidHello ctx → registry.owner = none →
      registry.claim hello.clientId = some (lease, claimed) →
      Greeted
        { state :=
            { state with
              attached := true
              clientId := some hello.clientId
              role := some .owner
              ownerLease := some lease
              capabilities := some hello.capabilities }
          registry := claimed
          effects := [.sendToClient (.serverHello (serverHello hello .owner claimed buffer ctx))] }

theorem processHello_greeted :
    state.Greeted msg buffer registry ctx (state.processHello msg buffer registry ctx) := by
  unfold processHello
  split
  · rename_i hello
    split
    · exact .refused ..
    split
    · exact .refused ..
    split
    · exact .refused ..
    rename_i version terminal encoding
    have valid : ClientMsg.ValidHello (.clientHello hello) ctx :=
      ⟨hello, rfl, not_not.mp version, not_not.mp terminal, not_not.mp encoding⟩
    rcases registry.onAttach_cases hello.clientId hello.roleHint with
      attach | ⟨lease, claimed, free, issued, attach⟩
    · simpa [attach] using Greeted.observing hello valid
    · simpa [attach, (claim_eq_some issued).1] using
        Greeted.owning hello lease claimed valid free issued
  · exact .refused ..

variable {state msg buffer registry ctx}

section

variable (greeted : state.Greeted msg buffer registry ctx handled)

include greeted

theorem Greeted.moved : state.Moved registry handled.state handled.registry := by
  cases greeted with
  | refused => exact .kept rfl (.inr rfl)
  | observing => exact .kept rfl (.inl rfl)
  | owning _ lease _ _ _ issued =>
    obtain ⟨owner, fresh, count⟩ := claim_eq_some issued
    exact .granted lease owner fresh count rfl

theorem Greeted.coherent (coherent : state.Coherent) : handled.state.Coherent := by
  cases greeted with
  | refused => exact coherent
  | observing => rintro ⟨⟩
  | owning => exact fun _ => ⟨rfl, rfl⟩

theorem Greeted.inert : Effect.Inert handled.effects := by
  cases greeted <;> simp [refuseHello, steers, types]

theorem Greeted.resizeEpoch_eq : handled.state.resizeEpoch = state.resizeEpoch := by
  cases greeted <;> rfl

end

/-- What a frame of an attached client does, once a stale lease was dropped. -/
inductive Served (state : TerminalSessionState) (registry : OwnerRegistry) :
    ClientMsg → Handled → Prop
  | idle {msg : ClientMsg} {effects : List Effect} : Effect.Inert effects →
      Served state registry msg { state, registry, effects }
  | acked {msg : ClientMsg} (renderRev : Nat) :
      Served state registry msg
        { state := { state with lastRenderAckedRev := some renderRev }, registry, effects := [] }
  | typed {msg : ClientMsg} {effect : Effect} : effect.types = true → effect.steers = false →
      state.role = some .owner ∨ state.kernelInput = true →
      Served state registry msg { state, registry, effects := [effect] }
  | killed : state.role = some .owner →
      Served state registry .kill { state, registry, effects := [.killChild] }
  | resized {epoch cols rows : Nat} {applied : DaemonMsg} : state.role = some .owner →
      state.resizeEpoch < epoch →
      Served state registry (.resizeCommit epoch cols rows)
        { state := { state with resizeEpoch := epoch }
          registry
          effects := [.resizePty cols rows, .broadcast applied] }
  | claimed {clientId : Uuid} {lease : OwnerLease} {registry' : OwnerRegistry} :
      registry.claim clientId = some (lease, registry') →
      Served state registry .ownerClaim
        { state := { state with ownerLease := some lease, role := some .owner }
          registry := registry'
          effects := [.assignOwner (some clientId), .broadcastOwnerChanged (some clientId)] }
  | released {effects : List Effect} : Effect.Inert effects →
      Served state registry .ownerRelease
        { state := (state.releaseOwner registry).2.1
          registry := (state.releaseOwner registry).2.2
          effects }

theorem processFrame_served :
    Served state registry msg (state.processFrame msg registry ctx) := by
  cases msg with
  | input =>
    simp only [processFrame]
    split
    · rename_i permitted
      exact .typed rfl rfl permitted
    · exact .idle (by simp [notOwnerError, steers, types])
  | resizeCommit =>
    simp only [processFrame]
    split
    · exact .idle (by simp [notOwnerError, steers, types])
    split
    · exact .idle inert_nil
    · rename_i isOwner newer
      exact .resized (not_not.mp isOwner) (Nat.lt_of_not_le newer)
  | ownerClaim =>
    simp only [processFrame]
    split
    · exact .idle inert_nil
    split
    · exact .idle (by simp [steers, types])
    · rename_i issued
      exact .claimed issued
  | ownerRelease =>
    have inert : Effect.Inert (if (state.releaseOwner registry).1 then
        [.assignOwner none, .broadcastOwnerChanged none] else []) := by
      split <;> simp [steers, types]
    exact .released inert
  | renderAck renderRev => exact .acked renderRev
  | kill =>
    simp only [processFrame]
    split
    · rename_i isOwner
      exact .killed isOwner
    · exact .idle (by simp [notOwnerError, steers, types])
  | clientHello => exact .idle (by simp [steers, types])
  | terminalThemeUpdate =>
    simp only [processFrame]
    split
    · exact .idle inert_nil
    split
    · exact .idle (by simp [notOwnerError, steers, types])
    · rename_i permitted
      refine .typed rfl rfl ?_
      by_contra neither
      rw [not_or] at neither
      exact permitted neither
  | answerQuestion => exact .idle inert_nil

section

variable (served : Served state registry msg handled)

include served

theorem Served.moved : state.Moved registry handled.state handled.registry := by
  cases served with
  | idle | acked | typed | killed | resized => exact .kept rfl (.inr rfl)
  | claimed issued =>
    obtain ⟨owner, fresh, count⟩ := claim_eq_some issued
    exact .granted _ owner fresh count rfl
  | released => exact releaseOwner_moved

theorem Served.coherent (coherent : state.Coherent) (attached : state.attached = true) :
    handled.state.Coherent := by
  cases served with
  | idle | acked | typed | killed | resized => exact coherent
  | claimed => exact fun _ => ⟨attached, rfl⟩
  | released =>
    change (state.releaseOwner registry).2.1.Coherent
    exact coherent.releaseOwner

theorem Served.attached_eq : handled.state.attached = state.attached := by
  cases served <;> rfl

theorem Served.steered (member : effect ∈ handled.effects) (steers : effect.steers = true) :
    state.role = some .owner := by
  cases served with
  | killed isOwner | resized isOwner => exact isOwner
  | idle inert | released inert => simp [(inert effect member).1] at steers
  | acked => cases member
  | typed _ never =>
    rw [mem_singleton] at member
    simp [member, never] at steers
  | claimed =>
    simp only [mem_cons, not_mem_nil, or_false] at member
    rcases member with rfl | rfl <;> cases steers

theorem Served.typed_by (member : effect ∈ handled.effects) (types : effect.types = true) :
    state.role = some .owner ∨ state.kernelInput = true := by
  cases served with
  | typed _ _ permitted => exact permitted
  | killed isOwner | resized isOwner => exact .inl isOwner
  | idle inert | released inert => simp [(inert effect member).2] at types
  | acked => cases member
  | claimed =>
    simp only [mem_cons, not_mem_nil, or_false] at member
    rcases member with rfl | rfl <;> cases types

theorem Served.resizeEpoch_le : state.resizeEpoch ≤ handled.state.resizeEpoch := by
  cases served with
  | resized _ newer => exact Nat.le_of_lt newer
  | idle | acked | typed | killed | claimed | released => exact Nat.le_refl _

/-- A resize that reaches the PTY carries a newer epoch, which is then the connection's. -/
theorem Served.resized_newer (member : resizePty cols rows ∈ handled.effects)
    (commit : msg = .resizeCommit epoch cols' rows') :
    state.resizeEpoch < epoch ∧ handled.state.resizeEpoch = epoch := by
  cases served with
  | resized _ newer =>
    cases commit
    exact ⟨newer, rfl⟩
  | idle inert => simpa [steers] using (inert _ member).1
  | typed _ never =>
    rw [mem_singleton] at member
    simp [← member, steers] at never
  | acked => cases member
  | killed | claimed | released => cases commit

end

/-! ### Every frame -/

/-- The connection caches the registry's lease. -/
def Current (state : TerminalSessionState) (registry : OwnerRegistry) : Prop :=
  ∃ lease, state.ownerLease = some lease ∧ registry.owner = some lease

theorem demote_current (left : (state.demote registry).ownerLease = some lease) :
    state.Current registry :=
  ⟨lease, demote_ownerLease left⟩

/-- A release changes the owner only if the connection caches the registry's lease. -/
theorem releaseOwner_changes (changed : (state.releaseOwner registry).2.2.owner ≠ registry.owner) :
    state.Current registry ∧ (state.releaseOwner registry).2.2.owner = none := by
  have moved : state.Moved registry _ (state.releaseOwner registry).2.2 := releaseOwner_moved
  cases moved with
  | kept same => exact absurd (congrArg owner same) changed
  | granted _ _ _ _ cached => cases cached
  | released lease held owner free => exact ⟨⟨lease, held, owner⟩, free⟩

/-- How a frame can change the owner. -/
inductive FrameChange (state : TerminalSessionState) (msg : ClientMsg) (registry : OwnerRegistry)
    (ctx : SessionContext) (handled : Handled) : Prop
  | handshake : state.attached = false → msg.ValidHello ctx → registry.owner = none →
      handled.state.Current handled.registry → FrameChange state msg registry ctx handled
  | claim : state.attached = true → msg = .ownerClaim →
      handled.state.Current handled.registry → FrameChange state msg registry ctx handled
  | release : msg = .ownerRelease → state.Current registry → handled.registry.owner = none →
      FrameChange state msg registry ctx handled

theorem Greeted.frameChange (greeted : state.Greeted msg buffer registry ctx handled)
    (detached : state.attached = false) (changed : handled.registry.owner ≠ registry.owner) :
    FrameChange state msg registry ctx handled := by
  cases greeted with
  | refused | observing => exact absurd rfl changed
  | owning _ lease _ valid free issued =>
    exact .handshake detached valid free ⟨lease, rfl, (claim_eq_some issued).1⟩

theorem Served.frameChange (served : Served (state.demote registry) registry msg handled)
    (attached : state.attached = true) (changed : handled.registry.owner ≠ registry.owner) :
    FrameChange state msg registry ctx handled := by
  cases served with
  | idle | acked | typed | killed | resized => exact absurd rfl changed
  | claimed issued =>
    exact .claim attached rfl ⟨_, rfl, (claim_eq_some issued).1⟩
  | released =>
    obtain ⟨⟨_, left, _⟩, free⟩ := releaseOwner_changes changed
    exact .release rfl (demote_current left) free

theorem onClientFrame_changes
    (changed : (state.onClientFrame msg buffer registry ctx).registry.owner ≠ registry.owner) :
    FrameChange state msg registry ctx (state.onClientFrame msg buffer registry ctx) := by
  unfold onClientFrame at changed ⊢
  split at changed
  · rename_i attached
    rw [if_pos attached]
    exact processFrame_served.frameChange attached changed
  · rename_i detached
    rw [if_neg detached]
    exact (state.processHello_greeted msg buffer registry ctx).frameChange
      (Bool.eq_false_iff.mpr detached) changed

theorem onClientFrame_moved :
    state.Moved registry (state.onClientFrame msg buffer registry ctx).state
      (state.onClientFrame msg buffer registry ctx).registry := by
  unfold onClientFrame
  split
  · exact processFrame_served.moved.of_demote
  · exact (state.processHello_greeted msg buffer registry ctx).moved

theorem Coherent.onClientFrame (coherent : state.Coherent) (msg : ClientMsg) (buffer : ByteRing)
    (registry : OwnerRegistry) (ctx : SessionContext) :
    (state.onClientFrame msg buffer registry ctx).state.Coherent := by
  unfold TerminalSessionState.onClientFrame
  split
  · rename_i attached
    exact processFrame_served.coherent coherent.demote (by simpa using attached)
  · exact (state.processHello_greeted msg buffer registry ctx).coherent coherent

/-- A connection is attached by a valid first frame alone, and stays attached. -/
theorem onClientFrame_attached :
    (state.onClientFrame msg buffer registry ctx).state.attached = true →
      state.attached = true ∨ msg.ValidHello ctx := by
  intro attached
  unfold onClientFrame at attached
  split at attached
  · rename_i already
    exact .inl already
  · have greeted := state.processHello_greeted msg buffer registry ctx
    generalize state.processHello msg buffer registry ctx = handled at greeted attached
    cases greeted with
    | refused => exact .inl attached
    | observing _ valid | owning _ _ _ valid => exact .inr valid

/-- **Authority of one frame.**  What steers the terminal, or types into it without the
kernel's capability, comes from a connection that caches the registry's lease. -/
theorem onClientFrame_authorised (coherent : state.Coherent)
    (member : effect ∈ (state.onClientFrame msg buffer registry ctx).effects)
    (needsOwner : effect.steers = true ∨ effect.types = true ∧ state.kernelInput = false) :
    state.Current registry := by
  unfold onClientFrame at member
  split at member
  · have served : Served _ registry msg ((state.demote registry).processFrame msg registry ctx) :=
      processFrame_served
    have isOwner : (state.demote registry).role = some .owner := by
      rcases needsOwner with steers | ⟨types, noKernel⟩
      · exact served.steered member steers
      · rcases served.typed_by member types with owner | kernel
        · exact owner
        · simp [noKernel] at kernel
    obtain ⟨lease, left⟩ := Option.isSome_iff_exists.mp (coherent.demote isOwner).2
    exact ⟨lease, demote_ownerLease left⟩
  · obtain ⟨steers, types⟩ :=
      (state.processHello_greeted msg buffer registry ctx).inert effect member
    simp [steers, types] at needsOwner

theorem onClientFrame_inert (detached : state.attached = false) :
    Effect.Inert (state.onClientFrame msg buffer registry ctx).effects := by
  unfold onClientFrame
  rw [if_neg (by simp [detached])]
  exact (state.processHello_greeted msg buffer registry ctx).inert

theorem onClientFrame_resizeEpoch_le :
    state.resizeEpoch ≤ (state.onClientFrame msg buffer registry ctx).state.resizeEpoch := by
  unfold onClientFrame
  split
  · have served : Served _ registry msg ((state.demote registry).processFrame msg registry ctx) :=
      processFrame_served
    simpa using served.resizeEpoch_le
  · exact Nat.le_of_eq (state.processHello_greeted msg buffer registry ctx).resizeEpoch_eq.symm

theorem onClientFrame_resized (member : resizePty cols' rows' ∈
      (state.onClientFrame (.resizeCommit epoch cols rows) buffer registry ctx).effects) :
    state.resizeEpoch < epoch ∧
      (state.onClientFrame (.resizeCommit epoch cols rows) buffer registry ctx).state.resizeEpoch =
        epoch := by
  unfold onClientFrame at member ⊢
  split at member
  · rename_i attached
    rw [if_pos attached]
    simpa using processFrame_served.resized_newer member rfl
  · have := (state.processHello_greeted _ buffer registry ctx).inert _ member
    simp [steers] at this

end TerminalSessionState

/-! ## Many connections -/

/-- The connections of one terminal and the registry they share. -/
structure System (ι : Type) where
  sessions : ι → TerminalSessionState
  registry : OwnerRegistry

inductive Act (ι : Type) where
  | frame (connection : ι) (msg : ClientMsg) (buffer : ByteRing) (ctx : SessionContext)
  | teardown (connection : ι)

def Act.connection {ι : Type} : Act ι → ι
  | .frame connection _ _ _ => connection
  | .teardown connection => connection

/-- The frame attaches the connection, if it is the first valid one. -/
def Act.Greets {ι : Type} (connection : ι) : Act ι → Prop
  | .frame sender msg _ ctx => sender = connection ∧ msg.ValidHello ctx
  | .teardown _ => False

namespace System

variable {ι : Type} [DecidableEq ι]

def init : System ι where
  sessions _ := .new
  registry := .new

def set (system : System ι) (connection : ι) (state : TerminalSessionState)
    (registry : OwnerRegistry) : System ι where
  sessions := Function.update system.sessions connection state
  registry := registry

@[simp] theorem set_registry (system : System ι) (connection : ι) (state : TerminalSessionState)
    (registry : OwnerRegistry) : (system.set connection state registry).registry = registry := rfl

@[simp] theorem set_self (system : System ι) (connection : ι) (state : TerminalSessionState)
    (registry : OwnerRegistry) :
    (system.set connection state registry).sessions connection = state :=
  Function.update_self ..

theorem set_other (system : System ι) (other : i ≠ connection) (state : TerminalSessionState)
    (registry : OwnerRegistry) :
    (system.set connection state registry).sessions i = system.sessions i :=
  Function.update_of_ne other ..

/-- One frame, or the teardown of one connection, under the registry's lock. -/
def react (system : System ι) : Act ι → System ι × List Effect
  | .frame connection msg buffer ctx =>
    let handled := (system.sessions connection).onClientFrame msg buffer system.registry ctx
    (system.set connection handled.state handled.registry, handled.effects)
  | .teardown connection =>
    let (_, state, registry) := (system.sessions connection).releaseOwner system.registry
    (system.set connection state registry, [])

/-- The connection caches the registry's lease. -/
def Holds (system : System ι) (connection : ι) : Prop :=
  (system.sessions connection).Current system.registry

/-- Cached leases were issued, each to one connection. -/
structure Sound (system : System ι) : Prop where
  coherent : ∀ i, (system.sessions i).Coherent
  issued : ∀ i lease, (system.sessions i).ownerLease = some lease →
    lease.generation ≤ system.registry.generation
  once : ∀ i j lease, (system.sessions i).ownerLease = some lease →
    (system.sessions j).ownerLease = some lease → i = j

omit [DecidableEq ι] in
theorem sound_init : Sound (init : System ι) where
  coherent _ := coherent_new
  issued := by simp [init, new]
  once := by simp [init, new]

/-- A step moves one connection's lease and the registry. -/
theorem react_moved (system : System ι) (act : Act ι) :
    ∃ state registry, (system.react act).1 = system.set act.connection state registry ∧
      (system.sessions act.connection).Moved system.registry state registry := by
  cases act with
  | frame => exact ⟨_, _, rfl, onClientFrame_moved ..⟩
  | teardown => exact ⟨_, _, rfl, releaseOwner_moved⟩

theorem Sound.coherent_react {system : System ι} (sound : system.Sound) (act : Act ι) (i : ι) :
    ((system.react act).1.sessions i).Coherent := by
  by_cases same : i = act.connection
  · subst same
    cases act with
    | frame connection msg buffer ctx =>
      simpa [react, set, Act.connection] using
        (sound.coherent connection).onClientFrame msg buffer _ ctx
    | teardown connection =>
      simpa [react, set, Act.connection] using (sound.coherent connection).releaseOwner
  · obtain ⟨_, _, isSet, _⟩ := system.react_moved act
    rw [isSet, set_other _ same]
    exact sound.coherent i

/-- The leases cached after a move: one's own old lease, another's, or the one just issued. -/
theorem Sound.set {system : System ι} (sound : system.Sound) {registry : OwnerRegistry}
    (moved : (system.sessions connection).Moved system.registry state registry)
    (coherent : ∀ i, ((system.set connection state registry).sessions i).Coherent) :
    (system.set connection state registry).Sound := by
  -- no lease is cached that was not
  have stays (unchanged : ∀ issued, state.ownerLease = some issued →
      (system.sessions connection).ownerLease = some issued)
      (count : registry.generation = system.registry.generation) :
      (system.set connection state registry).Sound := by
    have old : ∀ i lease,
        ((system.set connection state registry).sessions i).ownerLease = some lease →
          (system.sessions i).ownerLease = some lease := by
      intro i lease cached
      rcases eq_or_ne i connection with rfl | other
      · rw [set_self] at cached
        exact unchanged lease cached
      · rwa [set_other _ other] at cached
    refine ⟨coherent, fun i lease cached => ?_, fun i j lease first second => ?_⟩
    · rw [set_registry, count]
      exact sound.issued i lease (old i lease cached)
    · exact sound.once i j lease (old i lease first) (old j lease second)
  cases moved with
  | kept same lease =>
    refine stays (fun issued cached => ?_) (by rw [same])
    rcases lease with gone | cached'
    · simp [gone] at cached
    · rwa [cached'] at cached
  | released _ _ _ _ count gone => exact stays (by simp [gone]) count
  | granted fresh _ generation _ cached =>
    -- the new lease has a generation no cached lease has
    have split : ∀ i lease,
        ((system.set connection state registry).sessions i).ownerLease = some lease →
          i = connection ∧ lease = fresh ∨
            (system.sessions i).ownerLease = some lease ∧ i ≠ connection := by
      intro i lease cached'
      rcases eq_or_ne i connection with rfl | other
      · rw [set_self, cached] at cached'
        exact .inl ⟨rfl, (Option.some.inj cached').symm⟩
      · rw [set_other _ other] at cached'
        exact .inr ⟨cached', other⟩
    refine ⟨coherent, fun i lease cached' => ?_, fun i j lease first second => ?_⟩
    · change lease.generation ≤ registry.generation
      rcases split i lease cached' with ⟨_, rfl⟩ | ⟨held, _⟩
      · omega
      · have := sound.issued i lease held
        omega
    · rcases split i lease first with ⟨rfl, rfl⟩ | ⟨held, _⟩
      · rcases split j lease second with ⟨rfl, _⟩ | ⟨held, _⟩
        · rfl
        · have := sound.issued j lease held
          omega
      · rcases split j lease second with ⟨rfl, rfl⟩ | ⟨held', _⟩
        · have := sound.issued i lease held
          omega
        · exact sound.once i j lease held held'

theorem Sound.react {system : System ι} (sound : system.Sound) (act : Act ι) :
    (system.react act).1.Sound := by
  obtain ⟨_, _, isSet, moved⟩ := system.react_moved act
  have coherent := sound.coherent_react act
  rw [isSet] at coherent ⊢
  exact sound.set moved coherent

theorem sound_run (events : List (Act ι)) : (run react init events).Sound :=
  run_preserves Sound (fun _ act sound => sound.react act) sound_init events

omit [DecidableEq ι] in
/-- At most one connection caches the registry's lease. -/
theorem Sound.exclusive {system : System ι} (sound : system.Sound) (first : system.Holds i)
    (second : system.Holds j) : i = j := by
  obtain ⟨lease, cached, owner⟩ := first
  obtain ⟨_, cached', owner'⟩ := second
  cases owner.symm.trans owner'
  exact sound.once i j lease cached cached'

/-! ## Changes of ownership -/

/-- How a step can change the owner. -/
inductive OwnerChange (before : System ι) (act : Act ι) (after : System ι) : Prop
  | handshake :
      act = .frame connection msg buffer ctx → (before.sessions connection).attached = false →
      msg.ValidHello ctx → before.registry.owner = none → after.Holds connection →
      OwnerChange before act after
  | claim :
      act = .frame connection .ownerClaim buffer ctx →
      (before.sessions connection).attached = true → after.Holds connection →
      OwnerChange before act after
  | release :
      act = .teardown connection ∨
        (∃ buffer ctx, act = .frame connection .ownerRelease buffer ctx) →
      before.Holds connection → after.registry.owner = none → OwnerChange before act after

theorem react_ownerChange (before : System ι) (act : Act ι)
    (changed : (before.react act).1.registry.owner ≠ before.registry.owner) :
    OwnerChange before act (before.react act).1 := by
  cases act with
  | teardown =>
    obtain ⟨holds, free⟩ := releaseOwner_changes changed
    exact .release (.inl rfl) holds free
  | frame _ _ buffer ctx =>
    rcases onClientFrame_changes changed with
      ⟨detached, valid, free, current⟩ | ⟨attached, rfl, current⟩ | ⟨rfl, current, free⟩
    · exact .handshake rfl detached valid free (by simpa [Holds, react] using current)
    · exact .claim rfl attached (by simpa [Holds, react] using current)
    · exact .release (.inr ⟨buffer, ctx, rfl⟩) current free

/-! ## Whole runs -/

theorem run_attached (events : List (Act ι)) (system : System ι) :
    ((run react system events).sessions connection).attached = true →
      (system.sessions connection).attached = true ∨ ∃ act ∈ events, act.Greets connection := by
  induction events generalizing system with
  | nil => exact .inl
  | cons act _ ih =>
    intro attached
    rcases ih (system.react act).1 attached with before | ⟨later, member, greets⟩
    · rcases eq_or_ne connection act.connection with rfl | other
      · cases act with
        | frame =>
          simp only [react, Act.connection, set_self] at before
          rcases onClientFrame_attached before with already | valid
          · exact .inl already
          · exact .inr ⟨_, mem_cons_self, rfl, valid⟩
        | teardown =>
          simp only [react, Act.connection, set_self] at before
          exact .inl before
      · obtain ⟨_, _, isSet, _⟩ := system.react_moved act
        rw [isSet, set_other _ other] at before
        exact .inl before
    · exact .inr ⟨later, mem_cons_of_mem _ member, greets⟩

/-- The epoch of a resize that the connection sent and that reached the PTY. -/
def acceptedEpoch (connection : ι) : Act ι × List Effect → Option Nat
  | (.frame sender (.resizeCommit epoch _ _) _ _, effects) =>
    if sender = connection ∧ effects.any Effect.resizes then some epoch else none
  | _ => none

/-- The resize epochs accepted on one connection, in order. -/
def acceptedEpochs (connection : ι) (system : System ι) (events : List (Act ι)) : List Nat :=
  (events.zip (trace react system events)).filterMap (acceptedEpoch connection)

theorem react_resizeEpoch_le (system : System ι) (act : Act ι) (connection : ι) :
    (system.sessions connection).resizeEpoch ≤
      ((system.react act).1.sessions connection).resizeEpoch := by
  rcases eq_or_ne connection act.connection with rfl | other
  · cases act with
    | frame =>
      simpa [react, Act.connection] using onClientFrame_resizeEpoch_le
    | teardown => simp [react, Act.connection, releaseOwner]
  · obtain ⟨_, _, isSet, _⟩ := system.react_moved act
    exact Nat.le_of_eq (by rw [isSet, set_other _ other])

theorem react_acceptedEpoch {system : System ι}
    (accepted : acceptedEpoch connection (act, (system.react act).2) = some epoch) :
    (system.sessions connection).resizeEpoch < epoch ∧
      ((system.react act).1.sessions connection).resizeEpoch = epoch := by
  unfold acceptedEpoch at accepted
  split at accepted
  · rename_i isPair
    cases isPair
    split at accepted
    · rename_i reached
      cases accepted
      obtain ⟨rfl, resized⟩ := reached
      obtain ⟨effect, member, resizes⟩ := any_eq_true.mp resized
      cases effect with
      | resizePty =>
        simpa [react] using onClientFrame_resized member
      | _ => cases resizes
    · cases accepted
  · cases accepted

/-- The accepted epochs rise from the connection's own on. -/
theorem acceptedEpochs_increase (connection : ι) (system : System ι) (events : List (Act ι)) :
    ((system.sessions connection).resizeEpoch ::
      acceptedEpochs connection system events).Pairwise (· < ·) := by
  induction events generalizing system with
  | nil => exact pairwise_singleton _ _
  | cons act _ ih =>
    have later := ih (system.react act).1
    have rises := system.react_resizeEpoch_le act connection
    simp only [acceptedEpochs, trace, zip_cons_cons, filterMap_cons] at later ⊢
    rw [pairwise_cons] at later
    obtain ⟨above, ordered⟩ := later
    cases accepted : acceptedEpoch connection (act, (system.react act).2) with
    | none =>
      exact pairwise_cons.mpr
        ⟨fun epoch member => Nat.lt_of_le_of_lt rises (above epoch member), ordered⟩
    | some =>
      obtain ⟨newer, isNow⟩ := react_acceptedEpoch accepted
      rw [isNow] at above
      refine pairwise_cons.mpr ⟨?_, pairwise_cons.mpr ⟨above, ordered⟩⟩
      intro epoch' member
      rcases mem_cons.mp member with rfl | member
      · exact newer
      · exact Nat.lt_trans newer (above epoch' member)

/-- What holds of the next step of a run. -/
structure Controlled (events : List (Act ι)) (before : System ι) (act : Act ι) (after : System ι)
    (effects : List Effect) : Prop where
  /-- At most one connection holds the registry's lease. -/
  exclusive : ∀ i j, before.Holds i → before.Holds j → i = j
  /-- Resizes and kills come from the holder, and so does what a connection without the kernel's
  capability writes or recolours. -/
  authorised : ∀ effect ∈ effects,
    effect.steers = true ∨
        effect.types = true ∧ (before.sessions act.connection).kernelInput = false →
      before.Holds act.connection
  /-- The owner changes by a handshake that finds none, by a claim, or by the holder's release. -/
  change : after.registry.owner ≠ before.registry.owner → OwnerChange before act after
  /-- Nothing of this comes before a valid `ClientHello`. -/
  greeted : (∀ earlier ∈ events, ¬earlier.Greets act.connection) → Effect.Inert effects

/-- **Only the lease holder controls the terminal.**  After any frames and teardowns of any
connections, whatever comes next is controlled by the registry's lease, and the resize epochs
accepted so far on each connection rise strictly. -/
theorem lease_holder_controls (events : List (Act ι)) (act : Act ι) :
    Controlled events (run react init events) act ((run react init events).react act).1
        ((run react init events).react act).2 ∧
      ∀ connection, (acceptedEpochs connection init events).Pairwise (· < ·) := by
  have sound := sound_run events
  refine ⟨⟨fun _ _ => sound.exclusive, ?_, react_ownerChange _ act, ?_⟩, ?_⟩
  · intro effect member needsOwner
    cases act with
    | frame connection =>
      exact TerminalSessionState.onClientFrame_authorised (sound.coherent connection) member
        needsOwner
    | teardown => cases member
  · intro unheard
    cases act with
    | frame =>
      refine TerminalSessionState.onClientFrame_inert (Bool.eq_false_iff.mpr fun attached => ?_)
      rcases run_attached events init attached with already | ⟨earlier, member, greets⟩
      · cases already
      · exact unheard earlier member greets
    | teardown => exact Effect.inert_nil
  · intro connection
    exact (acceptedEpochs_increase connection init events).of_cons

end System

end NeigeCalm.Terminal
