import NeigeCalm.Operations.Row
import NeigeCalm.Task
import Mathlib.Data.List.Sort

/-!
# Who uses a track's checkout

The tasks of a track share one checkout.  A task that changes it runs alone; read-only tasks
may run beside each other.  `checkoutOccupancy` reads who is in it from three tables: the
tasks in flight, the leases, and the deliveries that have not landed.  `checkoutAdmission`
says which pending tasks may start, and `claimTask` and `prepare` are the two transactions
that ask: the claim of a pending task, and the preparation of its worker, which asks again
because a claimed worker may have yielded in between.
-/

namespace NeigeCalm.Checkout

open Library Operations

/-! ## Leases and deliveries -/

inductive LeaseState where
  | held
  | releasing
  | released
deriving DecidableEq

/-- The lease of a worker; `owner` is the operation that took it. -/
structure WorkspaceLease where
  id : Text
  owner : Option Text
  access : TaskAccess
  state : LeaseState
deriving DecidableEq

def WorkspaceLease.active (lease : WorkspaceLease) : Bool := lease.state != .released

/-- The commit of an ended attempt into the checkout. -/
structure Delivery where
  producer : Text
  settled : Bool
deriving DecidableEq

/-- The rows of one track.  `current` is the execution a key is now run by. -/
structure Track (V : Type) where
  id : Text
  isOpen : Bool
  tasks : List Task
  current : Text → Option Text
  operations : List (Operation V)
  leases : List WorkspaceLease
  deliveries : List Delivery

variable {V : Type}

def Track.currentTasks (track : Track V) : List Task :=
  track.tasks.filter fun task => track.current task.key == some task.id

def Track.tasksInSchedulerOrder (track : Track V) : List Task :=
  track.currentTasks.insertionSort fun a b => a.rank ≤ b.rank

/-! ## Occupancy -/

inductive CheckoutOccupancy where
  | free
  | readers
  | busy
deriving DecidableEq

/-- A task that changes the checkout needs it free; a read-only task may join other
readers. -/
def CheckoutOccupancy.admits : CheckoutOccupancy → TaskAccess → Bool
  | .free, _ => true
  | .readers, access => access == .readOnly
  | .busy, _ => false

def CheckoutOccupancy.join : CheckoutOccupancy → TaskAccess → CheckoutOccupancy
  | .busy, _ => .busy
  | _, .readWrite => .busy
  | _, .readOnly => .readers

/-- The worker operation of a task, as long as it has no effect yet. -/
def Track.unpreparedOperation (track : Track V) (kind : Text) (task : Task) :
    Option (Operation V) :=
  track.operations.find? fun op =>
    op.kind == kind && op.idempotencyKey == some task.id && op.phase == .pending &&
      op.txOutput.isNone && op.spawnArtifacts.isNone && op.completedAt.isNone

/-- A dispatched worker that yielded: unprepared, claimed by nobody, bound to this task, with
a blocker that can be read. -/
def pendingCheckoutBlocker (now : Int) (track : Track V) (task : Task) :
    Option (Text × PendingBlocker) :=
  if task.status != .dispatched || !task.runsInTrackCheckout then none
  else do
    let kind ← task.kind.workerOperationKind
    let op ← track.unpreparedOperation kind task
    if op.leaseOwner.isSome && op.leaseUntil.all (fun deadline => now ≤ deadline) then none
    else if op.payload.trackId != some track.id ||
        op.payload.idempotencyKey != some task.id then none
    else match op.phaseDetail with
      | some (.blocker blocker) => if blocker.readable then some (op.id, blocker) else none
      | _ => none

/-- The tasks in flight that count: not the one asking, in the checkout, and not yielded. -/
def Track.occupyingTasks (now : Int) (track : Track V) (exceptAttempt : Text) : List Task :=
  track.currentTasks.filter fun task =>
    task.id != exceptAttempt && task.status.isInFlight && task.runsInTrackCheckout &&
      (pendingCheckoutBlocker now track task).isNone

def Track.leaseOperation (track : Track V) (lease : WorkspaceLease) : Option (Operation V) :=
  track.operations.find? fun op => lease.owner == some op.id

/-- The active leases that count: not the asking attempt's, and none whose owner is stuck. -/
def Track.occupyingLeases (track : Track V) (exceptAttempt : Text) : List WorkspaceLease :=
  track.leases.filter fun lease =>
    lease.active && (track.leaseOperation lease).bind (·.idempotencyKey) != some exceptAttempt &&
      (track.leaseOperation lease).map (·.phase) != some .stuck

def checkoutOccupancy (now : Int) (track : Track V) (exceptAttempt : Text) :
    CheckoutOccupancy :=
  let tasks := (track.occupyingTasks now exceptAttempt).map Task.access
  let leases := (track.occupyingLeases exceptAttempt).map WorkspaceLease.access
  if track.deliveries.any fun delivery =>
      !delivery.settled && delivery.producer != exceptAttempt then .busy
  else (tasks ++ leases).foldl .join .free

/-! ## Admission -/

inductive CheckoutWait where
  /-- The occupancy does not admit its access. -/
  | inUse
  /-- A task that changes the checkout is waiting ahead of this read-only one. -/
  | writerAhead
deriving DecidableEq

def doneKeys (tasks : List Task) : List Text :=
  (tasks.filter fun task => task.status == .done).map Task.key

/-- Pending, with every dependency done. -/
def isReady (tasks : List Task) (task : Task) : Bool :=
  task.status == .pending && task.dependsOn.all fun key => key ∈ doneKeys tasks

def admitFrom (occupancy : CheckoutOccupancy) (writerWaiting : Bool) :
    List Task → List (Task × Option CheckoutWait)
  | [] => []
  | task :: rest =>
    if !task.runsInTrackCheckout then
      (task, none) :: admitFrom occupancy writerWaiting rest
    else if task.access == .readOnly && writerWaiting then
      (task, some .writerAhead) :: admitFrom occupancy writerWaiting rest
    else if occupancy.admits task.access then
      (task, none) :: admitFrom occupancy writerWaiting rest
    else
      (task, some .inUse) :: admitFrom occupancy (writerWaiting || task.access == .readWrite) rest

/-- The admission rule over the tasks in scheduler order: every ready task, with why it
waits. -/
def checkoutAdmission (tasks : List Task) (occupancy : CheckoutOccupancy) :
    List (Task × Option CheckoutWait) :=
  admitFrom occupancy false (tasks.filter (isReady tasks))

/-! ## The claim of a task -/

def Track.setStatus (track : Track V) (id : Text) (status : TaskStatus) : Track V :=
  { track with
    tasks := track.tasks.map fun task => if task.id = id then { task with status } else task }

/-- `pending → dispatched` of a current execution; `none` when another won. -/
def taskClaimPending (track : Track V) (id : Text) : Option (Track V) :=
  if track.currentTasks.any fun task => task.id == id && task.status == .pending then
    some (track.setStatus id .dispatched)
  else none

/-- The claim transaction.  `fenced` is the outcome of what else it checks: the report
revisions its context was read at, and the state of a parent track. -/
def claimTask (now : Int) (fenced : Bool) (track : Track V) (id : Text) : Option (Track V) :=
  if !track.isOpen || !fenced then none
  else if (checkoutAdmission track.tasksInSchedulerOrder
      (checkoutOccupancy now track id)).any fun (sibling, wait) =>
        sibling.id == id && wait.isNone then taskClaimPending track id
  else none

/-! ## The preparation of a worker -/

inductive StartError where
  | conflict (message : Text)
  | operationBlocked (blocker : PendingBlocker)

def Track.taskGet (track : Track V) (id : Text) : Option Task :=
  track.tasks.find? fun task => task.id == id

/-- Refuse a side effect unless the execution is its key's current one and still live. -/
def requireAttemptStartable (track : Track V) (id : Text) : Except StartError Task :=
  match track.taskGet id with
  | none => .error (.conflict "execution no longer exists".toList)
  | some task =>
    match track.current task.key with
    | none => .error (.conflict "current execution allocation is missing".toList)
    | some current =>
      if current ≠ id ∨ task.status.isInFlight = false then
        .error (.conflict "execution is obsolete or terminal; refusing new side effects".toList)
      else .ok task

def checkoutBlocker (track : Track V) : PendingBlocker where
  blockerClass := .checkout
  retryOwner := .driver
  ownerScope := "track".toList
  resource := track.id
  retryWhen := "the current checkout occupant finishes and its delivery settles".toList

/-- Admit a checkout worker again at its preparation. -/
def requireCheckoutStartable (now : Int) (track : Track V) (id : Text) :
    Except StartError Task :=
  match requireAttemptStartable track id with
  | .error e => .error e
  | .ok task =>
    if !task.runsInTrackCheckout then .ok task
    else if !track.isOpen then
      .error (.conflict "track closed before worker preparation or release".toList)
    else if !(checkoutOccupancy now track id).admits task.access then
      .error (.operationBlocked (checkoutBlocker track))
    else .ok task

/-- The check of a worker operation: it is bound to a task of its kind in the checkout. -/
def requireOperationCheckout (now : Int) (track : Track V) (op : Operation V) :
    Except StartError Task :=
  match op.idempotencyKey with
  | none => .error (.conflict "checkout worker has no task binding".toList)
  | some id =>
    match track.taskGet id with
    | none => .error (.conflict "checkout worker task is missing".toList)
    | some task =>
      if task.kind.workerOperationKind ≠ some op.kind ∨ task.runsInTrackCheckout = false ∨
          op.payload.idempotencyKey ≠ some id ∨ op.payload.trackId ≠ some track.id then
        .error (.conflict "checkout worker operation does not match its task".toList)
      else requireCheckoutStartable now track id

def Track.setOperation (track : Track V) (op : Operation V) : Track V :=
  { track with
    operations := track.operations.map fun other => if other.id = op.id then op else other }

/-- The preparation transaction of a worker: under its live claim and admitted again, it
takes the lease with the task's access and commits its output. -/
def prepare [DecidableEq V] (now : Int) (track : Track V) (op : Operation V)
    (output : TxOutput V) (lease : Text) : Option (Task × Track V) := do
  let row ← track.operations.find? fun row => row.id == op.id
  if op.kind ∉ [TaskKind.codex, .claude, .terminal].filterMap TaskKind.workerOperationKind then
    none
  else
    match hasLiveClaim now op row, requireOperationCheckout now track op,
        writePhaseAndTxOutput now (.claimed op) .txCommitted output row with
    | .ok true, .ok task, .ok (.applied _, row') =>
      some (task, { track.setOperation row' with
        leases := track.leases ++ [⟨lease, some op.id, task.access, .held⟩] })
    | _, _, _ => none

end NeigeCalm.Checkout
