import NeigeCalm.Error
import NeigeCalm.Library.Text

/-!
# The row of an operation

An operation is one row of the `operations` table.  A driver takes it through its phases:
it claims the row by writing a lease owner with an expiry, works outside any transaction,
and writes the next phase with the handle it got from its claim.  Between the claim and the
write the lease may have expired and the row may have been claimed, moved or settled by
somebody else.

Every function below is one transaction on the row: its predicate and its writes.  A result
`claimLost` or an error leaves the row as it was.
-/

namespace NeigeCalm.Operations

open Library

/-! ## Phases -/

inductive PhaseTag where
  | pending
  | txCommitted
  | appServerInteract
  | awaitingRetry
  | spawnStarted
  | spawnSucceeded
  | parked
  | succeeded
  | compensating
  | failed
  | stuck
deriving DecidableEq

/-- The phases of a settled operation. -/
def PhaseTag.isTerminal : PhaseTag → Bool
  | .succeeded | .failed | .stuck => true
  | _ => false

/-- The phases a driver claims an operation in. -/
def PhaseTag.isDrivable : PhaseTag → Bool
  | .pending | .txCommitted | .appServerInteract | .spawnStarted | .spawnSucceeded
  | .compensating => true
  | _ => false

inductive AppServerInteractKind where
  | mintAndAwait (threadId : Option Text)
  | registerPending (entryId : Option Text)
deriving DecidableEq

inductive Phase where
  | pending
  | txCommitted
  | appServerInteract (kind : AppServerInteractKind)
  | awaitingRetry (kind : AppServerInteractKind)
  | spawnStarted
  | spawnSucceeded
  | parked
  | succeeded
  | compensating
  | failed
  | stuck (reason : Text) (since : Int)

def Phase.tag : Phase → PhaseTag
  | .pending => .pending
  | .txCommitted => .txCommitted
  | .appServerInteract _ => .appServerInteract
  | .awaitingRetry _ => .awaitingRetry
  | .spawnStarted => .spawnStarted
  | .spawnSucceeded => .spawnSucceeded
  | .parked => .parked
  | .succeeded => .succeeded
  | .compensating => .compensating
  | .failed => .failed
  | .stuck _ _ => .stuck

/-- Who may claim a pending operation after a blocked drive returns. -/
inductive PendingRetryOwner where
  | driver
  | scheduler
deriving DecidableEq

inductive PendingBlockerClass where
  | driverBusy
  | launchFence
  | locationOwner
  | workspaceRemoval
  | checkout
deriving DecidableEq

structure PendingBlocker where
  blockerClass : PendingBlockerClass
  retryOwner : PendingRetryOwner
  ownerScope : Text
  resource : Text
  retryWhen : Text
deriving DecidableEq

/-- None of a blocker's facts is blank: what reading it back requires. -/
def PendingBlocker.readable (blocker : PendingBlocker) : Bool :=
  [blocker.ownerScope, blocker.resource, blocker.retryWhen].all fun fact =>
    !fact.all isWhitespace

def PendingBlocker.withRetryOwner (blocker : PendingBlocker) (owner : PendingRetryOwner) :
    PendingBlocker :=
  { blocker with retryOwner := owner }

/-- The JSON objects stored beside a phase. -/
inductive PhaseDetail where
  | retryOwner (owner : PendingRetryOwner)
  | blocker (blocker : PendingBlocker)
  | interact (kind : AppServerInteractKind)
  | compensation (fromPhase : PhaseTag) (reason : Text)
  | failure (fromPhase : PhaseTag) (lastErrorClass : Option Text)
  | stuck (reason : Text) (since : Int) (fromPhase : Option PhaseTag)
  | collision (existingOperation : Text)
deriving DecidableEq

def Phase.serializeSplit (phase : Phase) : PhaseTag × Option PhaseDetail :=
  match phase with
  | .appServerInteract kind | .awaitingRetry kind => (phase.tag, some (.interact kind))
  | .stuck reason since => (.stuck, some (.stuck reason since none))
  | _ => (phase.tag, none)

/-- The `retry_owner` field; a blocker the driver retries is stored without one. -/
def PhaseDetail.storedRetryOwner : PhaseDetail → Option PendingRetryOwner
  | .retryOwner owner => some owner
  | .blocker held => if held.retryOwner = .driver then none else some held.retryOwner
  | _ => none

/-- `json_set(coalesce(detail, '{}'), '$.retry_owner', 'scheduler')` on the details of a
pending row. -/
def PhaseDetail.ownedByScheduler : Option PhaseDetail → PhaseDetail
  | none => .retryOwner .scheduler
  | some (.retryOwner _) => .retryOwner .scheduler
  | some (.blocker held) => .blocker (held.withRetryOwner .scheduler)
  | some other => other

/-! ## Outputs -/

/-- The fields of an output that an owner writes apart from the phase writes. -/
inductive OwnerKey where
  | terminalLaunch
  | gateExecution
  | forgeExecution
  | workspaceReclaim
  | terminalWorkerExecution
deriving DecidableEq

structure OwnerState (V : Type) where
  isObject : Bool
  value : V

/-- The `data` of an output: an object with its owner-state fields set apart, or any other
value. -/
inductive OutputData (V : Type) where
  | fields (rest : V) (owned : OwnerKey → Option (OwnerState V))
  | other (value : V)

def OutputData.owned {V : Type} : OutputData V → OwnerKey → Option (OwnerState V)
  | .fields _ owned, key => owned key
  | .other _, _ => none

structure TxOutput (V : Type) where
  targetType : Text
  targetId : Option Text
  result : V
  data : OutputData V

section Outputs

variable {V : Type}

/-- What two outputs are compared by: everything but the owner-state fields. -/
def outputValue (output : Option (TxOutput V)) : Option (Text × Option Text × V × Bool × V) :=
  output.map fun output => match output.data with
    | .fields rest _ => (output.targetType, output.targetId, output.result, true, rest)
    | .other value => (output.targetType, output.targetId, output.result, false, value)

/-- A written output keeps the owner-state objects of the stored one. -/
def preservingOwner (stored : Option (TxOutput V)) (output : TxOutput V) : TxOutput V :=
  match output.data with
  | .fields rest owned =>
    { output with
      data := .fields rest fun key =>
        match stored.bind fun stored => stored.data.owned key with
        | some state => if state.isObject then some state else owned key
        | none => owned key }
  | .other _ => output

end Outputs

/-! ## Rows -/

/-- The payload of an operation, with the two text fields that bind it to a task. -/
structure Payload (V : Type) where
  trackId : Option Text
  idempotencyKey : Option Text
  rest : V
deriving DecidableEq

structure CompensationState (V : Type) where
  fromPhase : PhaseTag
  reason : Text
  steps : List V

/-- The accepted inputs of an operation, which no write changes. -/
structure Inputs (V : Type) where
  id : Text
  operationKey : Text
  kind : Text
  idempotencyKey : Option Text
  payloadHash : Text
  payload : Payload V
deriving DecidableEq

structure Operation (V : Type) extends Inputs V where
  txOutput : Option (TxOutput V)
  phase : PhaseTag
  phaseDetail : Option PhaseDetail
  attempt : Int
  lastError : Option Text
  compensationState : Option (CompensationState V)
  leaseOwner : Option Text
  leaseUntil : Option Int
  spawnArtifacts : Option V
  parkedAt : Option Int
  parkedDeadline : Option Int
  completedAt : Option Int

def operationLeaseMs : Int := 60000

section Writes

variable {V : Type} [DecidableEq V]

/-- The one insertion: a pending row that nobody holds. -/
def insertPendingRow (inputs : Inputs V) (phaseDetail : Option PhaseDetail) : Operation V where
  toInputs := inputs
  txOutput := none
  phase := .pending
  phaseDetail := phaseDetail
  attempt := 0
  lastError := none
  compensationState := none
  leaseOwner := none
  leaseUntil := none
  spawnArtifacts := none
  parkedAt := none
  parkedDeadline := none
  completedAt := none

def requiredLeaseOwner (op : Operation V) : Except CalmError Text :=
  match op.leaseOwner with
  | some owner => .ok owner
  | none => .error (.internal ("operation ".toList ++ op.id ++
      " is not claimed by the current driver".toList))

def requiredOutput (op : Operation V) : Except CalmError (TxOutput V) :=
  match op.txOutput with
  | some output => .ok output
  | none => .error (.internal ("operation ".toList ++ op.id ++ " missing tx_output_json".toList))

def requireOriginalOperation (original row : Operation V) : Except CalmError Unit :=
  if row.toInputs = original.toInputs then .ok ()
  else .error (.conflict "original operation inputs changed".toList)

/-- The row is still held, unexpired and in its phase, by the claim that `original` is the
handle of. -/
def hasLiveClaim (now : Int) (original row : Operation V) : Except CalmError Bool :=
  match requiredLeaseOwner original with
  | .error e => .error e
  | .ok owner =>
    .ok (decide (row.toInputs = original.toInputs) && row.phase == original.phase &&
      row.leaseOwner == some owner && row.leaseUntil.any (fun deadline => now ≤ deadline) &&
      row.completedAt.isNone)

/-- The blocker of a pending operation; ownership by the scheduler alone is not one. -/
def pendingBlocker (op : Operation V) : Except CalmError (Option PendingBlocker) :=
  if op.phase ≠ .pending then .ok none
  else match op.phaseDetail with
    | none => .ok none
    | some (.retryOwner .scheduler) => .ok none
    | some (.blocker blocker) =>
      if blocker.readable then .ok (some blocker)
      else .error (.conflict ("pending operation ".toList ++ op.id ++
        " has unreadable blocker".toList))
    | some _ => .error (.conflict ("pending operation ".toList ++ op.id ++
        " has unreadable blocker".toList))

/-! ## Claims -/

/-- The owner of the next lease: the driver, unless a pending row is left to the scheduler. -/
def driverMayClaim (row : Operation V) : Bool :=
  row.phase != .pending ||
    match row.phaseDetail with
    | none => true
    | some detail =>
      detail.storedRetryOwner == none || detail.storedRetryOwner == some .driver

def Operation.leasedTo (row : Operation V) (owner : Text) (now : Int) : Operation V :=
  { row with leaseOwner := some owner, leaseUntil := some (now + operationLeaseMs) }

def claimDrivable (now : Int) (owner : Text) (row : Operation V) : Option (Operation V) :=
  if row.phase.isDrivable && row.leaseUntil.all (fun deadline => deadline < now) &&
      driverMayClaim row then some (row.leasedTo owner now)
  else none

/-- At boot no other process holds a lease, whatever its expiry says. -/
def claimOperationForBootRecovery (now : Int) (owner : Text) (row : Operation V) :
    Option (Operation V) :=
  if row.phase.isDrivable && driverMayClaim row then some (row.leasedTo owner now) else none

/-- `lease_owner IS NULL OR lease_until_ms < now`. -/
def Operation.unclaimed (row : Operation V) (now : Int) : Bool :=
  row.leaseOwner.isNone || row.leaseUntil.any (fun deadline => deadline < now)

def claimParked (now : Int) (owner : Text) (row : Operation V) : Option (Operation V) :=
  if row.phase == .parked && row.unclaimed now then some (row.leasedTo owner now) else none

def claimParkedForBoot (now : Int) (owner : Text) (row : Operation V) : Option (Operation V) :=
  if row.phase == .parked then some (row.leasedTo owner now) else none

def clearParkedLeaseForBoot (row : Operation V) : Option (Operation V) :=
  if row.phase == .parked then some { row with leaseOwner := none, leaseUntil := none }
  else none

/-- A scheduler claim adopts the pending row and keeps its blocker. -/
def claimPendingRetry (now : Int) (owner : Text) (original row : Operation V) :
    Except CalmError (Option (Operation V)) := do
  let _ ← pendingBlocker original
  requireOriginalOperation original row
  if row.phase == .pending && row.completedAt.isNone && row.unclaimed now then
    let claimed := { row.leasedTo owner now with
      phaseDetail := some (PhaseDetail.ownedByScheduler row.phaseDetail) }
    let _ ← pendingBlocker claimed
    return some claimed
  else return none

/-- An explicit retry rearms an unconfirmed interaction, once for each attempt number. -/
def claimRetry (now : Int) (owner : Text) (op : Operation V) (expectedAttempt : Int)
    (row : Operation V) : Except CalmError (Option (Operation V)) :=
  match op.phase, op.phaseDetail with
  | .awaitingRetry, some (.interact kind) =>
    match op.idempotencyKey with
    | none => .error (.internal "unkeyed interaction cannot await explicit retry".toList)
    | some key =>
      if row.id = op.id ∧ row.kind = op.kind ∧ row.idempotencyKey = some key ∧
          row.payloadHash = op.payloadHash ∧ row.phase = .awaitingRetry ∧
          row.attempt = expectedAttempt ∧ row.phaseDetail = some (.interact kind) ∧
          row.leaseOwner = none ∧ row.completedAt = none then
        .ok (some { row.leasedTo owner now with
          phase := .appServerInteract
          phaseDetail := some (.interact kind)
          attempt := row.attempt + 1 })
      else .ok none
  | _, _ => .ok none

/-! ## Yields of a pending operation -/

def deferPendingClaim (now : Int) (op : Operation V) (blocker : PendingBlocker)
    (retryOwner : PendingRetryOwner) (row : Operation V) :
    Except CalmError (Option (Operation V)) := do
  if !(← hasLiveClaim now op row) then
    throw (.conflict "operation no longer owns its original live claim".toList)
  -- The live claim already fixes the owner; the phase is the handle's, not always `pending`.
  if row.phase == .pending then
    return some { row with
      phaseDetail := some (.blocker (blocker.withRetryOwner retryOwner))
      leaseOwner := none
      leaseUntil := if retryOwner = .scheduler then none else row.leaseUntil }
  else return none

def deferUnclaimedPending (now : Int) (blocker : PendingBlocker) (row : Operation V) :
    Option (Operation V) :=
  if row.phase == .pending && row.unclaimed now then
    some { row with
      phaseDetail := some (.blocker (blocker.withRetryOwner .scheduler))
      leaseOwner := none
      leaseUntil := none }
  else none

def releasePendingForRetry (now : Int) (row : Operation V) : Option (Operation V) :=
  if row.phase == .pending && row.unclaimed now then
    some { row with leaseOwner := none, leaseUntil := none }
  else none

/-! ## Writes under a claim -/

/-- A write of the phase: applied, or why it was not. -/
inductive LeaveWrite (α : Type) where
  | applied (value : α)
  | claimLost
  | retained

/-- The check every claimed write starts with. -/
def underClaim {α : Type} (now : Int) (op row : Operation V)
    (write : Except CalmError (LeaveWrite α × Operation V)) :
    Except CalmError (LeaveWrite α × Operation V) :=
  match hasLiveClaim now op row with
  | .error e => .error e
  | .ok false => .ok (.claimLost, row)
  | .ok true => write

/-- An operation whose owner still has a record in the output keeps its phase. -/
def retainOwned (key : Option OwnerKey) (row : Operation V) : Bool :=
  key.any fun key => (row.txOutput.bind fun output => output.data.owned key).isSome

def Operation.retained (row : Operation V) : Operation V :=
  { row with lastError := some "owned execution retained: generic phase write refused".toList }

def setPhase (now : Int) (op : Operation V) (phase : Phase) (ownerKey : Option OwnerKey)
    (row : Operation V) : Except CalmError (LeaveWrite Unit × Operation V) :=
  if phase.tag.isTerminal then .error (.internal "terminal phase requires settlement".toList)
  else if phase.tag = .awaitingRetry ∧ op.phase ≠ .appServerInteract then .ok (.claimLost, row)
  else underClaim now op row <|
    if retainOwned ownerKey row then .ok (.retained, row.retained)
    else .ok (.applied (), { row with
      phase := phase.serializeSplit.1
      phaseDetail := phase.serializeSplit.2
      leaseOwner := none
      leaseUntil := none })

/-- The output a callback may have committed: the one it started from, or the one it now
writes. -/
def settlementOutputMatches (op : Operation V) (output : TxOutput V) (row : Operation V) :
    Bool :=
  decide (outputValue row.txOutput = outputValue op.txOutput) ||
    decide (outputValue row.txOutput = outputValue (some output))

/-- By whose authority a phase is written: a claim, or the insertion in this very
transaction. -/
inductive PhaseWrite (V : Type) where
  | claimed (op : Operation V)
  | inserted (op : Operation V)

def PhaseWrite.op : PhaseWrite V → Operation V
  | .claimed op | .inserted op => op

def PhaseWrite.admits (now : Int) (output : TxOutput V) (row : Operation V) :
    PhaseWrite V → Except CalmError Bool
  | .claimed op => do return (← hasLiveClaim now op row) && settlementOutputMatches op output row
  | .inserted op => do
    requireOriginalOperation op row
    if op.leaseOwner.isSome || op.phase != .pending then
      throw (.conflict "inserted operation is already claimed".toList)
    return row.phase == .pending && row.leaseOwner.isNone && row.leaseUntil.isNone &&
      row.completedAt.isNone

def PhaseWrite.settles (phase : Phase) : PhaseWrite V → Bool
  | .inserted _ => phase.tag == .succeeded
  | .claimed _ => false

def writePhaseAndTxOutput (now : Int) (authority : PhaseWrite V) (phase : Phase)
    (output : TxOutput V) (row : Operation V) :
    Except CalmError (LeaveWrite Unit × Operation V) :=
  if phase.tag.isTerminal && !authority.settles phase then
    .error (.internal "terminal phase requires settlement".toList)
  else match authority.admits now output row with
    | .error e => .error e
    | .ok false => .ok (.claimLost, row)
    | .ok true =>
      if phase.tag = .awaitingRetry ∧ authority.op.phase ≠ .appServerInteract then
        .ok (.claimLost, row)
      else .ok (.applied (), { row with
        phase := phase.serializeSplit.1
        phaseDetail := phase.serializeSplit.2
        txOutput := some (preservingOwner row.txOutput output)
        leaseOwner := none
        leaseUntil := none
        completedAt := if phase.tag.isTerminal then some now else row.completedAt })

def setPhaseAndTxOutput (now : Int) (op : Operation V) (phase : Phase) (output : TxOutput V)
    (row : Operation V) : Except CalmError (LeaveWrite Unit × Operation V) :=
  writePhaseAndTxOutput now (.claimed op) phase output row

def recordSpawnArtifacts (now : Int) (op : Operation V) (artifacts : V) (row : Operation V) :
    Except CalmError (Option (Operation V)) := do
  if !(← hasLiveClaim now op row) then
    throw (.conflict "operation no longer owns its original live claim".toList)
  if op.phase != .spawnStarted then
    throw (.conflict "spawn artifacts require spawn_started".toList)
  return some { row with spawnArtifacts := some artifacts }

def setParked (now : Int) (op : Operation V) (deadline : Int) (ownerKey : Option OwnerKey)
    (row : Operation V) : Except CalmError (LeaveWrite Unit × Operation V) :=
  if op.phase ≠ .spawnStarted then .ok (.claimLost, row)
  else underClaim now op row <|
    if row.spawnArtifacts.isSome || retainOwned ownerKey row then
      .ok (.applied (), { row with
        phase := .parked
        phaseDetail := none
        parkedAt := some now
        parkedDeadline := some deadline
        leaseOwner := none
        leaseUntil := none })
    else .ok (.claimLost, row)

def setCompensating (now : Int) (op : Operation V) (state : CompensationState V)
    (ownerKey : Option OwnerKey) (row : Operation V) :
    Except CalmError (LeaveWrite Unit × Operation V) :=
  underClaim now op row <|
    if retainOwned ownerKey row then .ok (.retained, row.retained)
    else if row.txOutput.isNone then
      .error (.internal ("operation ".toList ++ op.id ++
        " has no committed output for compensation".toList))
    else .ok (.applied (), { row with
      phase := .compensating
      phaseDetail := some (.compensation state.fromPhase state.reason)
      compensationState := some state
      lastError := some state.reason
      leaseOwner := none
      leaseUntil := none })

def updateCompensationState (now : Int) (op : Operation V) (state : CompensationState V)
    (row : Operation V) : Except CalmError (LeaveWrite Unit × Operation V) :=
  underClaim now op row (.ok (.applied (), { row with compensationState := some state }))

/-! ## Settlement -/

inductive TerminalOutcome (V : Type) where
  | succeeded
  | succeededWithResult (result : V)
  | failed (lastError : Text) (fromPhase : PhaseTag) (lastErrorClass : Option Text)
  | stuck (reason : Text) (fromPhase : PhaseTag)

inductive OperationOutcome (V : Type) where
  | succeeded (result : Option V)
  | succeededViaCollision (existingOperation : Text) (result : Option V)
  | failed (lastError : Text) (fromPhase : PhaseTag) (lastErrorClass : Option Text)
  | stuck (reason : Text) (fromPhase : PhaseTag)

/-- The row of a settled operation. -/
def Operation.settled (row : Operation V) (now : Int) (phase : PhaseTag)
    (phaseDetail : Option PhaseDetail) (lastError : Option Text)
    (txOutput : Option (TxOutput V)) : Operation V :=
  { row with
    phase := phase
    phaseDetail := phaseDetail
    lastError := lastError
    txOutput := txOutput
    leaseOwner := none
    leaseUntil := none
    parkedDeadline := none
    completedAt := some now }

def noOutput : CalmError := .internal "successful operation has no output".toList

/-- The terminal write; its caller has admitted the claim or the parked row. -/
def writeTerminal (now : Int) (outcome : TerminalOutcome V) (row : Operation V) :
    Except CalmError (OperationOutcome V × Operation V) :=
  match outcome with
  | .succeeded =>
    match row.txOutput with
    | none => .error noOutput
    | some output =>
      .ok (.succeeded (some output.result), row.settled now .succeeded none none (some output))
  | .succeededWithResult result =>
    match row.txOutput with
    | none => .error noOutput
    | some output =>
      .ok (.succeeded (some result),
        row.settled now .succeeded none none (some { output with result := result }))
  | .failed lastError fromPhase lastErrorClass =>
    .ok (.failed lastError fromPhase lastErrorClass,
      row.settled now .failed (some (.failure fromPhase lastErrorClass)) (some lastError)
        row.txOutput)
  | .stuck reason fromPhase =>
    .ok (.stuck reason fromPhase,
      row.settled now .stuck (some (.stuck reason now (some fromPhase))) (some reason) row.txOutput)

def settleClaimed (now : Int) (op : Operation V) (outcome : TerminalOutcome V)
    (ownerKey : Option OwnerKey) (row : Operation V) :
    Except CalmError (LeaveWrite (OperationOutcome V) × Operation V) :=
  underClaim now op row <|
    if retainOwned ownerKey row then .ok (.retained, row.retained)
    else match writeTerminal now outcome row with
      | .error e => .error e
      | .ok (result, row') => .ok (.applied result, row')

inductive ParkedOutcome (V : Type) where
  | succeeded (result : V)
  | failed (lastError : Text) (lastErrorClass : Option Text)

def ParkedOutcome.terminal : ParkedOutcome V → TerminalOutcome V
  | .succeeded result => .succeededWithResult result
  | .failed lastError lastErrorClass => .failed lastError .parked lastErrorClass

/-- The completion of a parked operation needs no claim, only the phase. -/
def completeParked (now : Int) (outcome : ParkedOutcome V) (row : Operation V) :
    Except CalmError (Option (OperationOutcome V) × Operation V) :=
  if row.phase ≠ .parked then .ok (none, row)
  else match requiredOutput row with
    | .error e => .error e
    | .ok _ =>
      match writeTerminal now outcome.terminal row with
      | .error e => .error e
      | .ok (result, row') => .ok (some result, row')

/-- The result a settled row answers with. -/
def operationResultFrom (row : Operation V) : Option (Text × OperationOutcome V) :=
  match row.phase with
  | .succeeded =>
    match row.phaseDetail with
    | some (.collision existing) =>
      some (row.id, .succeededViaCollision existing (row.txOutput.map TxOutput.result))
    | _ => some (row.id, .succeeded (row.txOutput.map TxOutput.result))
  | .failed =>
    let lastError := row.lastError.getD "operation failed".toList
    match row.phaseDetail with
    | some (.failure fromPhase lastErrorClass) =>
      some (row.id, .failed lastError fromPhase lastErrorClass)
    | some (.compensation fromPhase _) => some (row.id, .failed lastError fromPhase none)
    | some (.stuck _ _ (some fromPhase)) => some (row.id, .failed lastError fromPhase none)
    | _ => some (row.id, .failed lastError .failed none)
  | .stuck =>
    match row.phaseDetail with
    | some (.stuck reason _ fromPhase) =>
      some (row.id, .stuck reason (fromPhase.getD .failed))
    | _ => none
  | _ => none

end Writes

end NeigeCalm.Operations
