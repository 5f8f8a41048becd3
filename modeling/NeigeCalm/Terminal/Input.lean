import NeigeCalm.Terminal.Session

/-!
# Terminal input: client pumps, the input barrier and the control writer

One renderer.  Every client has a pump, which answers its frames and puts writes into one queue; one
writer drains the queue towards the supervisor.  Handshakes, claims and the admission of a
connection's write take turns under the barrier's serial lock.  A write that was started and not
acknowledged in full leaves the barrier uncertain, and an uncertain barrier grants nothing.

Each await is a point where others may act, where the task may be cancelled, and where the
supervisor decides what happens next.
-/

namespace NeigeCalm.Terminal.Input

inductive WriteShape where
  | verbatim
  | splitTrailingCr
deriving DecidableEq

/-- The physical writes of one item: the bytes as sent, or text then CR. -/
def writeParts (data : Bytes) : WriteShape → List Bytes
  | .verbatim => [data]
  | .splitTrailingCr =>
    if 2 ≤ data.length ∧ data.getLast? = some 13 then [data.dropLast, [13]] else [data]

inductive ClientInputScope where
  | interactiveUser
  /-- Each check asks; no answer in time is a no. -/
  | bound
deriving DecidableEq

def ClientInputScope.allowed : ClientInputScope → Bool → Bool
  | .interactiveUser, _ => true
  | .bound, answer => answer

variable {ι : Type}

inductive WriteAuthority (ι : Type) where
  | trustedKernel
  | connection (permission : InputPermission) (sender : ι)
deriving DecidableEq

structure PtyWrite (ι : Type) where
  data : Bytes
  inputSeq : Nat
  /-- There is a channel for the outcome. -/
  ack : Bool
  authority : WriteAuthority ι
  shape : WriteShape
deriving DecidableEq

/-- The admission of the write is a guard on the barrier. -/
def PtyWrite.guarded (write : PtyWrite ι) : Bool :=
  match write.authority with
  | .trustedKernel => false
  | .connection _ _ => true

inductive SupervisorControl (ι : Type) where
  | write (write : PtyWrite ι)
  | resize (cols rows : Nat)
  | stop
deriving DecidableEq

/-- How the writer reaches the supervisor. -/
inductive Link where
  | legacy
  | typed
deriving DecidableEq

inductive ControlReply where
  | writeAck (writeSeq : Nat)
  | other
deriving DecidableEq

inductive ExecutionReply where
  | stdinProgress (acceptedBytes : Nat)
  | other
deriving DecidableEq

/-! ## The writer and the pumps -/

/-- A started write.  Its parts carry the sequence numbers after `first`. -/
structure Job (ι : Type) where
  id : Nat
  write : PtyWrite ι
  first : Nat
  index : Nat
  /-- What of the current part the supervisor was not given yet. -/
  left : Bytes
  /-- The current part was handed over and its reply is awaited. -/
  handed : Bool
  /-- A request with what is left is out. -/
  asked : Bool
  rest : List Bytes

def Job.seq (job : Job ι) : Nat := job.first + job.index + 1

/-- Where the writer awaits. -/
inductive Writer (ι : Type) where
  | idle
  /-- For the serial lock. -/
  | granting (id : Nat) (write : PtyWrite ι)
  /-- For the answer of the scope, with the serial lock. -/
  | scoping (id : Nat) (write : PtyWrite ι)
  /-- For the completion lock, with the serial lock. -/
  | fencing (id : Nat) (write : PtyWrite ι)
  | writing (job : Job ι)
  /-- For the replies to a resize or a stop. -/
  | controlling (rounds : Nat)
  | ended

/-- The writer holds the completion lock. -/
def Writer.fences : Writer ι → Bool
  | .writing job => job.write.guarded
  | _ => false

/-- Where a pump awaits. -/
inductive PumpStage where
  | connected
  | greeting (first : ClientMsg)
  /-- For the answer of the scope, with the serial lock. -/
  | greetingScope (first : ClientMsg)
  | serving
  | claiming (onlyIfUnowned : Bool)
  | claimingScope (onlyIfUnowned : Bool)
  | gone

structure Pump where
  stage : PumpStage
  session : TerminalSessionState

inductive Party (ι : Type) where
  | pump (connection : ι)
  | writer
deriving DecidableEq

structure Renderer (ι : Type) where
  registry : OwnerRegistry
  pumps : ι → Pump
  /-- Who holds the serial lock. -/
  serial : Option (Party ι)
  /-- A pump that forwards the exit holds the completion lock. -/
  watched : Bool
  uncertain : Bool
  awaitingSpawn : Bool
  /-- Every item that was ever put into the queue; its place is its identity. -/
  items : List (SupervisorControl ι)
  /-- The place of the next item to receive. -/
  next : Nat
  /-- The child has exited; no more items are taken. -/
  exited : Bool
  physicalSequence : Nat
  writer : Writer ι

/-- What is seen of a run. -/
inductive Event (ι : Type) where
  /-- A first frame was answered. -/
  | greeted (connection : ι)
  /-- A claim was answered. -/
  | claimed (connection : ι)
  /-- The registry issued a lease. -/
  | leased (connection : ι)
  | admitted (id : Nat)
  | started (id first : Nat)
  /-- Bytes of a part were given to the supervisor. -/
  | wrote (id index seq : Nat) (bytes : Bytes)
  /-- A request with bytes is out; how many of them are given is known from its reply. -/
  | offered (id index seq : Nat) (bytes : Bytes)
  /-- The reply to a part, which was sent under its sequence number. -/
  | replied (id index seq : Nat) (reply : ControlReply)
  /-- All parts are acknowledged. -/
  | acknowledged (id : Nat)
  | inputAck (id inputSeq : Nat)
deriving DecidableEq

inductive Act (ι : Type) where
  | firstFrame (connection : ι) (msg : ClientMsg)
  | frame (connection : ι) (msg : ClientMsg) (shape : WriteShape) (focusEventTracking : Bool)
      (buffer : ByteRing) (ctx : SessionContext)
  | claimIfUnowned (connection : ι)
  | pumpLocks (connection : ι)
  | pumpScope (connection : ι) (answer : Bool) (buffer : ByteRing) (ctx : SessionContext)
  /-- The transport ends, or the pump is cancelled. -/
  | depart (connection : ι)
  | kernelWrite (data : Bytes) (inputSeq : Nat) (ack : Bool) (shape : WriteShape)
  | spawned
  | childExited
  | watch (held : Bool)
  | receive
  | writerLocks
  | writerScope (answer : Bool)
  | writerFence
  /-- The stream takes some bytes. -/
  | hand (count : Nat)
  | reply (reply : ControlReply)
  | request
  | interact (reply : ExecutionReply)
  | controlReply
  /-- A transport error, or the time is up. -/
  | breakOff
  | cancelWriter

namespace Renderer

def init (awaitingSpawn : Bool) : Renderer ι where
  registry := OwnerRegistry.new
  pumps _ := { stage := .connected, session := TerminalSessionState.new }
  serial := none
  watched := false
  uncertain := false
  awaitingSpawn := awaitingSpawn
  items := []
  next := 0
  exited := false
  physicalSequence := 0
  writer := .idle

/-! ## The queue -/

def closed (r : Renderer ι) : Bool :=
  r.exited || match r.writer with
    | .ended => true
    | _ => false

def enqueue (r : Renderer ι) (control : SupervisorControl ι) : Renderer ι :=
  if r.closed then r else { r with items := r.items ++ [control] }

/-- A resize to nothing is not requested. -/
def requestResize (r : Renderer ι) (cols rows : Nat) : Renderer ι :=
  if cols = 0 ∨ rows = 0 then r else r.enqueue (.resize cols rows)

/-- `ESC [ I`. -/
def focusIn : Bytes := [27, 91, 73]

/-- What a pump does with the effects of a frame; the flag says that the connection is closed. -/
def enact (authority : WriteAuthority ι) (shape : WriteShape) (focusEventTracking : Bool) :
    List Effect → Renderer ι → Renderer ι × Bool
  | [], r => (r, false)
  | .writeToPty data inputSeq :: rest, r =>
    if r.closed then (r, true)
    else enact authority shape focusEventTracking rest
      (r.enqueue (.write { data, inputSeq, ack := 0 < inputSeq, authority, shape }))
  | .terminalThemeUpdate _ _ :: rest, r =>
    if !focusEventTracking then enact authority shape focusEventTracking rest r
    else if r.closed then (r, true)
    else enact authority shape focusEventTracking rest
      (r.enqueue (.write
        { data := focusIn, inputSeq := 0, ack := false, authority, shape := .verbatim }))
  | .resizePty cols rows :: rest, r =>
    enact authority shape focusEventTracking rest (r.requestResize cols rows)
  | .killChild :: rest, r => enact authority shape focusEventTracking rest (r.enqueue .stop)
  | .closeConnection :: _, r => (r, true)
  | .sendToClient _ :: rest, r | .broadcast _ :: rest, r
  | .sendProtocolError _ _ _ :: rest, r | .assignOwner _ :: rest, r
  | .broadcastOwnerChanged _ :: rest, r => enact authority shape focusEventTracking rest r

/-! ## The writer -/

/-- The guard of a write is dropped. -/
def unlock (r : Renderer ι) (write : PtyWrite ι) : Renderer ι :=
  if write.guarded then { r with serial := none } else r

/-- A started write ends without its acknowledgement, and the writer with it. -/
def abandon (r : Renderer ι) (write : PtyWrite ι) : Renderer ι :=
  { r.unlock write with uncertain := r.uncertain || write.guarded, writer := .ended }

/-- The acknowledgement that the client asked for. -/
def answer (id : Nat) (write : PtyWrite ι) : List (Event ι) :=
  if 0 < write.inputSeq ∧ write.ack = true then [.inputAck id write.inputSeq] else []

/-- Goes on with the parts that are left, or completes the write. -/
def proceed (r : Renderer ι) (id : Nat) (write : PtyWrite ι) (first index : Nat) :
    List Bytes → Renderer ι × List (Event ι)
  | [] =>
    ({ r.unlock write with writer := .idle }, .acknowledged id :: answer id write)
  | part :: rest =>
    ({ r with
        writer := .writing
          { id, write, first, index, left := part, handed := false, asked := false, rest } },
      [])

/-- Starts an admitted write, unless the sequence numbers are exhausted. -/
def begin (r : Renderer ι) (id : Nat) (write : PtyWrite ι) : Renderer ι × List (Event ι) :=
  let parts := writeParts write.data write.shape
  let first := r.physicalSequence
  if first + parts.length < 2 ^ 64 then
    let (r', events) :=
      { r with physicalSequence := first + parts.length }.proceed id write first 0 parts
    (r', .started id first :: events)
  else ({ r.unlock write with writer := .ended }, [])

/-- Only the reply with the part's own number acknowledges it. -/
def onReply (r : Renderer ι) (job : Job ι) (reply : ControlReply) : Renderer ι × List (Event ι) :=
  let (r', events) :=
    if reply = .writeAck job.seq then
      r.proceed job.id job.write job.first (job.index + 1) job.rest
    else (r.abandon job.write, [])
  (r', .replied job.id job.index job.seq reply :: events)

def receive (link : Link) (r : Renderer ι) : Renderer ι × List (Event ι) :=
  match r.items[r.next]? with
  | none => (if r.exited then { r with writer := .ended } else r, [])
  | some control =>
    let r := { r with next := r.next + 1 }
    match control with
    | .write write =>
      if r.exited then (r, [])
      else match write.authority with
        | .trustedKernel => r.begin (r.next - 1) write
        | .connection _ _ => ({ r with writer := .granting (r.next - 1) write }, [])
    | .resize cols rows =>
      if r.exited ∨ cols = 0 ∨ rows = 0 then (r, []) else ({ r with writer := .controlling 1 }, [])
    | .stop =>
      -- hang up, then kill
      ({ r with writer := .controlling (match link with | .legacy => 2 | .typed => 1) }, [])

/-- The write may go on: its lease is the registry's, or it has kernel permission. -/
def permitted (r : Renderer ι) : InputPermission → Bool
  | .owner lease => r.registry.isCurrent lease
  | .kernel => true
  | .denied => false

def writerScope (scopes : ι → ClientInputScope) (r : Renderer ι) (answer : Bool) (id : Nat)
    (write : PtyWrite ι) : Renderer ι × List (Event ι) :=
  match write.authority with
  | .trustedKernel => (r, [])
  | .connection permission sender =>
    if (scopes sender).allowed answer && r.permitted permission then
      ({ r with writer := .fencing id write }, [.admitted id])
    else ({ r with serial := none, writer := .idle }, [])

/-- A frame goes out byte by byte, and one reply comes back. -/
def hand (r : Renderer ι) (job : Job ι) (count : Nat) : Renderer ι × List (Event ι) :=
  ({ r with
      writer := .writing
        { job with left := job.left.drop count, handed := (job.left.drop count).isEmpty } },
    [.wrote job.id job.index job.seq (job.left.take count)])

/-- A request carries all that is left.  Without bytes there is none, and the part is acknowledged
under its number. -/
def request (r : Renderer ι) (job : Job ι) : Renderer ι × List (Event ι) :=
  if job.left = [] then r.onReply job (.writeAck job.seq)
  else
    ({ r with writer := .writing { job with asked := true } },
      [.offered job.id job.index job.seq job.left])

/-- The reply to a request says how much of it was accepted. -/
def interact (r : Renderer ι) (job : Job ι) : ExecutionReply → Renderer ι × List (Event ι)
  | .stdinProgress accepted =>
    if job.left.length < accepted then (r.abandon job.write, [])
    else
      let (r', events) :=
        if job.left.length = accepted then r.onReply job (.writeAck job.seq)
        else
          ({ r with
              writer := .writing { job with left := job.left.drop accepted, asked := false } },
            [])
      (r', .wrote job.id job.index job.seq (job.left.take accepted) :: events)
  | .other => (r.abandon job.write, [])

/-- The writer's task is dropped where it awaits. -/
def cancelWriter (r : Renderer ι) : Renderer ι :=
  match r.writer with
  | .writing job => r.abandon job.write
  | .scoping _ _ | .fencing _ _ => { r with serial := none, writer := .ended }
  | _ => { r with writer := .ended }

/-! ## The pumps -/

variable [DecidableEq ι]

def setPump (r : Renderer ι) (connection : ι) (pump : Pump) : Renderer ι :=
  { r with pumps := fun i => if i = connection then pump else r.pumps i }

def setStage (r : Renderer ι) (connection : ι) (stage : PumpStage) : Renderer ι :=
  r.setPump connection { r.pumps connection with stage }

/-- The lifetime of a connection owns its lease and the lock it may hold. -/
def depart (r : Renderer ι) (connection : ι) : Renderer ι :=
  let (_, session, registry) := (r.pumps connection).session.releaseOwner r.registry
  { r.setPump connection { stage := .gone, session } with
    registry
    serial := if r.serial = some (.pump connection) then none else r.serial }

/-- A frame is handled under the registry's lock. -/
def handle (r : Renderer ι) (connection : ι) (msg : ClientMsg) (buffer : ByteRing)
    (ctx : SessionContext) : Handled :=
  (r.pumps connection).session.onClientFrame msg buffer r.registry ctx

def leases (connection : ι) (before after : OwnerRegistry) : List (Event ι) :=
  if after.generation = before.generation then [] else [.leased connection]

/-- Stores what a frame left behind and enacts its effects. -/
def settle (r : Renderer ι) (connection : ι) (shape : WriteShape) (focusEventTracking : Bool)
    (handled : Handled) : Renderer ι :=
  let stored := { r.setPump connection { stage := .serving, session := handled.state } with
    registry := handled.registry }
  let (r', closes) := enact (.connection handled.state.inputPermission connection) shape
    focusEventTracking handled.effects stored
  if closes then r'.depart connection else r'

def refusesHandshake : Effect → Bool
  | .sendProtocolError _ _ _ | .closeConnection => true
  | _ => false

/-- Of the effects of a first frame only a resize reaches the queue. -/
def enactHandshake (r : Renderer ι) : Effect → Renderer ι
  | .resizePty cols rows => r.requestResize cols rows
  | _ => r

/-- Stores what a first frame left behind. -/
def settleHandshake (r : Renderer ι) (connection : ι) (handled : Handled) : Renderer ι :=
  let stored := { r.setPump connection { stage := .serving, session := handled.state } with
    registry := handled.registry }
  let resized := handled.effects.foldl enactHandshake stored
  if handled.effects.any refusesHandshake then resized.depart connection else resized

def pumpLocks (r : Renderer ι) (connection : ι) : Renderer ι :=
  match (r.pumps connection).stage with
  | .greeting first =>
    if r.uncertain then r.depart connection
    else { r.setStage connection (.greetingScope first) with serial := some (.pump connection) }
  | .claiming onlyIfUnowned =>
    if r.uncertain then r.setStage connection .serving
    else
      { r.setStage connection (.claimingScope onlyIfUnowned) with
        serial := some (.pump connection) }
  | _ => r

/-- Another client holds the terminal. -/
def heldByAnother (r : Renderer ι) (connection : ι) : Bool :=
  r.registry.currentOwner.any fun owner => some owner ≠ (r.pumps connection).session.clientId

def pumpScope (scopes : ι → ClientInputScope) (r : Renderer ι) (connection : ι) (answer : Bool)
    (buffer : ByteRing) (ctx : SessionContext) : Renderer ι × List (Event ι) :=
  match (r.pumps connection).stage with
  | .greetingScope first =>
    if (scopes connection).allowed answer then
      let handled := r.handle connection first buffer ctx
      ({ r with serial := none }.settleHandshake connection handled,
        .greeted connection :: leases connection r.registry handled.registry)
    else (r.depart connection, [])
  | .claimingScope onlyIfUnowned =>
    let free := { r with serial := none }
    if (scopes connection).allowed answer && !(onlyIfUnowned && r.heldByAnother connection) then
      let handled := r.handle connection .ownerClaim buffer ctx
      (free.settle connection .verbatim false handled,
        .claimed connection :: leases connection r.registry handled.registry)
    else (free.setStage connection .serving, [])
  | _ => (r, [])

def frame (r : Renderer ι) (connection : ι) (msg : ClientMsg) (shape : WriteShape)
    (focusEventTracking : Bool) (buffer : ByteRing) (ctx : SessionContext) :
    Renderer ι × List (Event ι) :=
  match msg with
  | .ownerClaim =>
    (if r.awaitingSpawn then r else r.setStage connection (.claiming false), [])
  | .input _ _ =>
    if r.awaitingSpawn then (r, [])
    else
      let handled := r.handle connection msg buffer ctx
      (r.settle connection shape focusEventTracking handled,
        leases connection r.registry handled.registry)
  | _ =>
    let handled := r.handle connection msg buffer ctx
    (r.settle connection shape focusEventTracking handled,
      leases connection r.registry handled.registry)

/-! ## One step -/

def react (link : Link) (scopes : ι → ClientInputScope) (r : Renderer ι) :
    Act ι → Renderer ι × List (Event ι)
  | .firstFrame connection msg => match (r.pumps connection).stage with
    | .connected => (r.setStage connection (.greeting msg), [])
    | _ => (r, [])
  | .frame connection msg shape focusEventTracking buffer ctx =>
    match (r.pumps connection).stage with
    | .serving => r.frame connection msg shape focusEventTracking buffer ctx
    | _ => (r, [])
  | .claimIfUnowned connection => match (r.pumps connection).stage with
    | .serving => (if r.awaitingSpawn then r else r.setStage connection (.claiming true), [])
    | _ => (r, [])
  | .pumpLocks connection => (if r.serial = none then r.pumpLocks connection else r, [])
  | .pumpScope connection answer buffer ctx => r.pumpScope scopes connection answer buffer ctx
  | .depart connection => (r.depart connection, [])
  | .kernelWrite data inputSeq ack shape =>
    (r.enqueue (.write { data, inputSeq, ack, authority := .trustedKernel, shape }), [])
  | .spawned => ({ r with awaitingSpawn := false }, [])
  | .watch held => (if held && r.writer.fences then r else { r with watched := held }, [])
  | .childExited => match link, r.writer with
    | .legacy, .idle => ({ r with exited := true }, [])
    | _, _ => (r, [])
  | .receive => match r.writer with
    | .idle => r.receive link
    | _ => (r, [])
  | .writerLocks => match r.writer with
    | .granting id write =>
      (if r.serial = none then
        if r.uncertain ∨ r.awaitingSpawn then { r with writer := .idle }
        else { r with serial := some .writer, writer := .scoping id write }
      else r, [])
    | _ => (r, [])
  | .writerScope answer => match r.writer with
    | .scoping id write => r.writerScope scopes answer id write
    | _ => (r, [])
  | .writerFence => match r.writer with
    | .fencing id write => if r.watched then (r, []) else r.begin id write
    | _ => (r, [])
  | .hand count => match link, r.writer with
    | .legacy, .writing job => if job.handed then (r, []) else r.hand job count
    | _, _ => (r, [])
  | .reply reply => match link, r.writer with
    | .legacy, .writing job => if job.handed then r.onReply job reply else (r, [])
    | _, _ => (r, [])
  | .request => match link, r.writer with
    | .typed, .writing job => if job.asked then (r, []) else r.request job
    | _, _ => (r, [])
  | .interact reply => match link, r.writer with
    | .typed, .writing job => if job.asked then r.interact job reply else (r, [])
    | _, _ => (r, [])
  | .controlReply => match r.writer with
    | .controlling (rounds + 2) => ({ r with writer := .controlling (rounds + 1) }, [])
    | .controlling _ => ({ r with writer := .idle }, [])
    | _ => (r, [])
  | .breakOff => match r.writer with
    | .writing job => (r.abandon job.write, [])
    | .controlling _ => ({ r with writer := .ended }, [])
    | _ => (r, [])
  | .cancelWriter => (r.cancelWriter, [])

end Renderer

end NeigeCalm.Terminal.Input
