import Mathlib.Data.Finset.Basic
import NeigeCalm.Objective.Ledger

/-!
# The engine: state, reducer, triggers and reaction

`react` applies one event to the state (`apply`, the reducer), which yields
occurrences, and then maps those to intents (`fire`, the trigger rules).  The
source mutates a clone of the state in place; here every handler returns the
state it leaves together with its occurrences, on the refusal paths too.

The `u64` counters `evaluations` and `compactions` are natural numbers: each
grows by at most one in an event, so a run shorter than `2 ^ 64` events, which
is every run there is, cannot wrap one.
-/

namespace NeigeCalm.Objective

/-! ## State -/

/-- Samples received so far, by check and sample index. -/
abbrev Samples (F : Type) := Std.ExtTreeMap CheckId (Std.ExtTreeMap Nat (SampleOutput F))

/-- The evaluation of one revision. -/
inductive Evaluation (F : Type) where
  /-- Waiting for check samples, collected by check and sample index. -/
  | running (id : EvaluationId) (revision : Revision) (samples : Samples F)
  /-- Every sample arrived and the verdict is known; waiting to be settled. -/
  | ready (id : EvaluationId) (revision : Revision) (results : Results F) (verdict : Verdict)

def Evaluation.id {F : Type} : Evaluation F → EvaluationId
  | .running id _ _ | .ready id _ _ _ => id

def Evaluation.revision {F : Type} : Evaluation F → Revision
  | .running _ revision _ | .ready _ revision _ _ => revision

inductive Status where
  | open
  | done (usage : Usage)
  | closed (usage : Usage)
  deriving DecidableEq

structure ObjectiveState (F H : Type) where
  definition : ObjectiveDefinition F
  /-- The latest approval; it counts only while it matches the current standard. -/
  approval : Option (Approval H)
  ledger : Ledger F
  evaluation : Option (Evaluation F)
  /-- Evaluations started so far; the next one's sequence number. -/
  evaluations : Nat
  /-- The verdict of the latest finished evaluation of the current standard. -/
  latestVerdict : Option Verdict
  status : Status
  usageAtStart : Usage
  /-- Budget limits already reported as exhausted. -/
  budgetNotified : Finset BudgetLimit

structure State (F H : Type) where
  objectives : Std.ExtTreeMap ObjectiveKey (ObjectiveState F H)
  /-- The latest cumulative usage the host reported. -/
  usage : Usage
  /-- A compaction is waiting for the host to become idle. -/
  pendingCompact : Bool
  /-- Compactions executed so far; the next one's sequence number. -/
  compactions : Nat

/-- `State::default()`. -/
def State.default {F H : Type} : State F H :=
  { objectives := ∅, usage := Usage.default, pendingCompact := false, compactions := 0 }

/-- Writes back the objective borrowed under `key`. -/
def State.put {F H : Type} (state : State F H) (key : ObjectiveKey)
    (objective : ObjectiveState F H) : State F H :=
  { state with objectives := state.objectives.insert key objective }

/-- Usage since definition, frozen when the objective finishes or closes. -/
def ObjectiveState.used {F H : Type} (objective : ObjectiveState F H) (current : Usage) : Usage :=
  match objective.status with
  | .open => current.since objective.usageAtStart
  | .done usage | .closed usage => usage

/-! ## Events, notices and commands -/

/-- Something that happened, reported by the host or the planner. -/
inductive Event (F H : Type) where
  | definitionChanged (objective : ObjectiveDefinition F)
  | approvalGranted (objective : ObjectiveKey) (approval : Approval H)
  | requested (objective : ObjectiveKey) (revision : Revision)
  | checkFinished (objective : ObjectiveKey) (evaluation : EvaluationId) (check : CheckId)
      (revision : Revision) (sample : Nat) (output : SampleOutput F)
  | revisionDelivered (revision : Revision)
  | settled (objective : ObjectiveKey) (evaluation : EvaluationId) (decision : Decision)
      (note : String)
  | closed (objective : ObjectiveKey)
  | hostIdle (queueLen : Nat)
  | usage (usage : Usage)

/-- Why an event changed nothing. -/
inductive IgnoreReason where
  | unknownObjective
  | notOpen
  | staleApproval
  | unknownCheck
  | staleResult
  | sampleOutOfRange
  | duplicateSample
  | kindMismatch
  | nothingToSettle
  deriving DecidableEq

/-- A message for the planner. -/
inductive Notice (H : Type) where
  | definitionRejected (objective : ObjectiveKey) (diagnostics : List Diagnostic)
  | approvalRequired (objective : ObjectiveKey) (standardHash : H)
  | approvalInvalidated (objective : ObjectiveKey)
  | evaluationReady (objective : ObjectiveKey) (evaluation : EvaluationId) (revision : Revision)
      (verdict : VerdictKind)
  | settleRefused (objective : ObjectiveKey) (error : SettleError)
  | plateauReached (objective : ObjectiveKey)
  | objectiveDone (objective : ObjectiveKey)
  | budgetExhausted (objective : ObjectiveKey) (limit : BudgetLimit)
  | eventIgnored (reason : IgnoreReason)
  deriving DecidableEq

/-- Who a command acts on, which decides who must allow it. -/
inductive Authority where
  | ownSession
  | workspace
  | external
  deriving DecidableEq

def Authority.requiresUserApproval (authority : Authority) : Bool := authority == .external

/-- The host's state as seen when a command is admitted. -/
structure HostState where
  idle : Bool
  queueLen : Nat
  deriving DecidableEq

inductive DeferReason where
  | hostBusy
  | queueNotEmpty
  deriving DecidableEq

inductive RefuseReason where
  | userApprovalRequired
  deriving DecidableEq

inductive Admission where
  | ready
  | defer (reason : DeferReason)
  | refuse (reason : RefuseReason)
  deriving DecidableEq

/-- The `Command` trait. -/
class Command (C : Type) where
  name : String
  authority : Authority
  /-- Whether the host may execute the command now. -/
  admission : C → HostState → Admission
  /-- A key under which the host executes the command at most once. -/
  idempotencyKey : C → String

/-- A command with external authority is refused until the user has approved it. -/
def admitCall {C : Type} [Command C] (command : C) (host : HostState) (userApproved : Bool) :
    Admission :=
  if (Command.authority C).requiresUserApproval && !userApproved then
    .refuse .userApprovalRequired
  else
    Command.admission command host

structure EntryBrief where
  revision : Revision
  decision : Decision
  note : String
  deriving DecidableEq

structure ObjectiveBrief (F H : Type) where
  key : ObjectiveKey
  title : String
  standardHash : H
  mode : Mode
  checks : List (CheckDefinition F)
  constraints : List String
  baseline : Option Revision
  ledger : List EntryBrief
  /-- Checks that regressed or goals not yet met in the latest verdict. -/
  openBlockers : List CheckId
  deriving DecidableEq

/-- What survives a compaction. -/
structure CompactBrief (F H : Type) where
  objectives : List (ObjectiveBrief F H)
  deriving DecidableEq

/-- Compacts the planner's own context, replacing it with a brief of its objectives. -/
structure Compact (F H : Type) where
  /-- Position of this compaction in the session; it makes the idempotency key. -/
  sequence : Nat
  brief : CompactBrief F H
  deriving DecidableEq

/-- The `NAME` of the command. -/
def Compact.name : String := "compact"

instance {F H : Type} : Command (Compact F H) where
  name := Compact.name
  authority := .ownSession
  admission _ host :=
    if !host.idle then .defer .hostBusy
    else if 0 < host.queueLen then .defer .queueNotEmpty
    else .ready
  idempotencyKey compact := Compact.name ++ ":" ++ toString compact.sequence

/-- Every command the engine can ask for. -/
inductive CommandCall (F H : Type) where
  | compact (call : Compact F H)
  deriving DecidableEq

/-- Something the engine asks the host to do. -/
inductive Intent (F H : Type) where
  | runCheck (objective : ObjectiveKey) (evaluation : EvaluationId) (check : CheckId)
      (revision : Revision) (sample : Nat)
  | execute (call : CommandCall F H)
  | notify (notice : Notice H)
  deriving DecidableEq

/-- What the reducer observed while applying one event. -/
inductive Occurrence (H : Type) where
  | notice (notice : Notice H)
  | evaluationStarted (objective : ObjectiveKey)
  | settled (objective : ObjectiveKey) (decision : Decision)
  | closed (objective : ObjectiveKey)
  | hostIdle (queueLen : Nat)
  | usageReported
  deriving DecidableEq

/-! ## The reducer -/

section Reduce

variable {F H : Type}

def ignored (reason : IgnoreReason) : List (Occurrence H) := [.notice (.eventIgnored reason)]

/-- The open objective `key`, or why the event must be ignored (`open`). -/
def openObjective (state : State F H) (key : ObjectiveKey) :
    Except (List (Occurrence H)) (ObjectiveState F H) :=
  match state.objectives[key]? with
  | none => .error (ignored .unknownObjective)
  | some objective =>
    if objective.status ≠ .open then .error (ignored .notOpen) else .ok objective

/-- The objective with the next evaluation running on `revision`. -/
def ObjectiveState.launch (objective : ObjectiveState F H) (revision : Revision) :
    ObjectiveState F H :=
  { objective with
    evaluations := objective.evaluations + 1
    evaluation := some (.running ⟨objective.evaluations⟩ revision ∅) }

/-- `revision` is already being evaluated. -/
def ObjectiveState.evaluates (objective : ObjectiveState F H) (revision : Revision) : Bool :=
  objective.evaluation.any (·.revision == revision)

/-- Starts evaluating `revision` unless that revision is already being evaluated. -/
def start (objective : ObjectiveState F H) (revision : Revision) :
    ObjectiveState F H × List (Occurrence H) :=
  if objective.evaluates revision then (objective, [])
  else (objective.launch revision, [.evaluationStarted objective.definition.key])

/-- Every check has as many samples as it takes. -/
def complete (definition : ObjectiveDefinition F) (samples : Samples F) : Bool :=
  definition.checks.all fun check =>
    ((samples[check.id]?).map (·.size)).getD 0 == check.config.samples

/-- The combined result of each check whose samples combine. -/
def combineAll (definition : ObjectiveDefinition F) (samples : Samples F) : Results F :=
  Std.ExtTreeMap.ofList <| definition.checks.filterMap fun check => do
    let received ← samples[check.id]?
    let output ← check.config.combine (received.toList.map (·.2))
    return (check.id, output)

/-- The objective after a close at session usage `usage`. -/
def ObjectiveState.close (objective : ObjectiveState F H) (usage : Usage) : ObjectiveState F H :=
  { objective with status := .closed (objective.used usage), evaluation := none }

def close (state : State F H) (key : ObjectiveKey) : State F H × List (Occurrence H) :=
  match state.objectives[key]? with
  | none => (state, ignored .unknownObjective)
  | some objective => match objective.status with
    | .closed _ => (state, ignored .notOpen)
    | .open | .done _ => (state.put key (objective.close state.usage), [.closed key])

/-- The objective after its ledger recorded a settle; a done settle finishes it. -/
def ObjectiveState.settle (objective : ObjectiveState F H) (ledger : Ledger F)
    (decision : Decision) (usage : Usage) : ObjectiveState F H :=
  { objective with
    ledger
    evaluation := none
    status := if decision = .done then .done (objective.used usage) else objective.status }

def settle (state : State F H) (key : ObjectiveKey) (evaluation : EvaluationId)
    (decision : Decision) (note : String) : State F H × List (Occurrence H) :=
  match openObjective state key with
  | .error ignored => (state, ignored)
  | .ok objective => match objective.evaluation with
    | some (.ready id revision results verdict) =>
      if id ≠ evaluation then (state, ignored .nothingToSettle)
      else match objective.ledger.settle { revision, results, decision, note } verdict with
        | .error error => (state, [.notice (.settleRefused key error)])
        | .ok ledger =>
          (state.put key (objective.settle ledger decision state.usage), [.settled key decision])
    | _ => (state, ignored .nothingToSettle)

/-- The objective while evaluation `id` of `revision` has received `samples`. -/
def ObjectiveState.collect (objective : ObjectiveState F H) (id : EvaluationId)
    (revision : Revision) (samples : Samples F) : ObjectiveState F H :=
  { objective with evaluation := some (.running id revision samples) }

variable [Scalar F]

/-- The verdict of `results` against the baseline in force. -/
def ObjectiveState.judge (objective : ObjectiveState F H) (results : Results F) : Verdict :=
  keepable objective.definition objective.ledger.resultsInForce results

/-- The objective once evaluation `id` of `revision` has every sample. -/
def ObjectiveState.conclude (objective : ObjectiveState F H) (id : EvaluationId)
    (revision : Revision) (samples : Samples F) : ObjectiveState F H :=
  let results := combineAll objective.definition samples
  let verdict := objective.judge results
  { objective with
    latestVerdict := some verdict
    evaluation := some (.ready id revision results verdict) }

/-- Collects one sample; the last one computes the verdict.  The entry of the
check is created before the duplicate test, as `or_default` does. -/
def finish (state : State F H) (key : ObjectiveKey) (evaluation : EvaluationId) (check : CheckId)
    (revision : Revision) (sample : Nat) (output : SampleOutput F) :
    State F H × List (Occurrence H) :=
  match openObjective state key with
  | .error ignored => (state, ignored)
  | .ok objective => match objective.evaluation with
    | some (.running id running samples) =>
      if id ≠ evaluation ∨ running ≠ revision then (state, ignored .staleResult)
      else match objective.definition.check check with
        | none => (state, ignored .unknownCheck)
        | some found =>
          if found.config.samples ≤ sample then (state, ignored .sampleOutOfRange)
          else if !found.config.accepts output then (state, ignored .kindMismatch)
          else
            let received := samples.getD check ∅
            let samples := samples.insert check received
            if received.contains sample then
              (state.put key (objective.collect id running samples), ignored .duplicateSample)
            else
              let samples := samples.insert check (received.insert sample output)
              if !complete objective.definition samples then
                (state.put key (objective.collect id running samples), [])
              else
                (state.put key (objective.conclude id revision samples),
                  [.notice (.evaluationReady key id revision
                    (objective.judge (combineAll objective.definition samples)).kind)])
    | _ => (state, ignored .staleResult)

variable [DecidableEq H] (digest : Canonical F → H)

def ObjectiveState.isApproved (objective : ObjectiveState F H) : Bool :=
  objective.approval.any (·.isValidFor digest objective.definition)

def approvalRequired (objective : ObjectiveDefinition F) : Occurrence H :=
  .notice (.approvalRequired objective.key (standardHash digest objective))

/-- A newly created objective. -/
def ObjectiveState.create (definition : ObjectiveDefinition F) (usage : Usage) :
    ObjectiveState F H :=
  { definition
    approval := none
    ledger := Ledger.default
    evaluation := none
    evaluations := 0
    latestVerdict := none
    status := .open
    usageAtStart := usage
    budgetNotified := ∅ }

/-- Every redefinition: the new definition, and the reminders it still exhausts. -/
def ObjectiveState.redefine (objective : ObjectiveState F H) (definition : ObjectiveDefinition F)
    (usage : Usage) : ObjectiveState F H :=
  { objective with
    definition
    budgetNotified := objective.budgetNotified.filter
      (· ∈ definition.budget.exhausted (objective.used usage)) }

/-- What a changed standard does on top: nothing judged under the old one survives. -/
def ObjectiveState.restate (objective : ObjectiveState F H)
    (previous definition : ObjectiveDefinition F) : ObjectiveState F H :=
  { objective with
    approval := none
    evaluation := none
    latestVerdict := none
    ledger := objective.ledger.retainComparable previous definition }

def define (state : State F H) (definition : ObjectiveDefinition F) :
    State F H × List (Occurrence H) :=
  let key := definition.key
  let diagnostics := definition.validate
  if diagnostics ≠ [] then (state, [.notice (.definitionRejected key diagnostics)])
  else if !state.objectives.contains key then
    (state.put key (ObjectiveState.create definition state.usage),
      [approvalRequired digest definition])
  else match openObjective state key with
    | .error ignored => (state, ignored)
    | .ok objective =>
      let previous := objective.definition
      let redefined := objective.redefine definition state.usage
      if standardHash digest previous = standardHash digest definition then
        (state.put key redefined, [])
      else
        (state.put key (redefined.restate previous definition),
          (if redefined.approval.isSome then [.notice (.approvalInvalidated key)] else []) ++
            [approvalRequired digest definition])

def approve (state : State F H) (key : ObjectiveKey) (approval : Approval H) :
    State F H × List (Occurrence H) :=
  match openObjective state key with
  | .error ignored => (state, ignored)
  | .ok objective =>
    if !approval.isValidFor digest objective.definition then (state, ignored .staleApproval)
    else (state.put key { objective with approval := some approval }, [])

def request (state : State F H) (key : ObjectiveKey) (revision : Revision) :
    State F H × List (Occurrence H) :=
  match openObjective state key with
  | .error ignored => (state, ignored)
  | .ok objective =>
    if !objective.isApproved digest then (state, [approvalRequired digest objective.definition])
    else (state.put key (start objective revision).1, (start objective revision).2)

/-- The objectives a delivered revision is evaluated against. -/
def ObjectiveState.receives (objective : ObjectiveState F H) : Bool :=
  objective.status == .open && objective.isApproved digest

def deliver (state : State F H) (revision : Revision) : State F H × List (Occurrence H) :=
  ({ state with
      objectives := state.objectives.map fun _ objective =>
        if objective.receives digest then (start objective revision).1 else objective },
    (state.objectives.toList.map (·.2)).filter (·.receives digest)
      |>.flatMap fun objective => (start objective revision).2)

def apply (state : State F H) : Event F H → State F H × List (Occurrence H)
  | .definitionChanged objective => define digest state objective
  | .approvalGranted objective approval => approve digest state objective approval
  | .requested objective revision => request digest state objective revision
  | .checkFinished objective evaluation check revision sample output =>
    finish state objective evaluation check revision sample output
  | .revisionDelivered revision => deliver digest state revision
  | .settled objective evaluation decision note =>
    settle state objective evaluation decision note
  | .closed objective => close state objective
  | .hostIdle queueLen => (state, [.hostIdle queueLen])
  | .usage usage => ({ state with usage }, [.usageReported])

end Reduce

/-! ## Trigger rules -/

section Triggers

variable {F H : Type}

def compactPolicy (state : State F H) (key : ObjectiveKey) : Option CompactPolicy :=
  (state.objectives[key]?).map (·.definition.compact)

/-- Run every sample of every check of the evaluation that started. -/
def runChecks (state : State F H) (key : ObjectiveKey) : List (Intent F H) :=
  match state.objectives[key]? with
  | none => []
  | some objective => match objective.evaluation with
    | some (.running id revision _) =>
      objective.definition.checks.flatMap fun check =>
        (List.range check.config.samples).map fun sample =>
          .runCheck key id check.id revision sample
    | _ => []

def afterSettle (state : State F H) (key : ObjectiveKey) (decision : Decision) :
    State F H × List (Intent F H) :=
  match state.objectives[key]? with
  | none => (state, [])
  | some objective =>
    (if objective.definition.compact = .everySettle then { state with pendingCompact := true }
      else state,
      (if objective.ledger.plateauReached objective.definition.mode then
        [.notify (.plateauReached key)] else []) ++
        if decision = .done then [.notify (.objectiveDone key)] else [])

/-- The body of the loop over the exhausted limits of one objective. -/
def remindLimits (key : ObjectiveKey) (limits : List BudgetLimit) (notified : Finset BudgetLimit) :
    Finset BudgetLimit × List (Intent F H) :=
  limits.foldl (fun (notified, intents) limit =>
    if limit ∈ notified then (notified, intents)
    else (insert limit notified, intents ++ [.notify (.budgetExhausted key limit)]))
    (notified, [])

/-- One objective's reminders, and the limits notified after them. -/
def remindBudget (usage : Usage) (key : ObjectiveKey) (objective : ObjectiveState F H) :
    ObjectiveState F H × List (Intent F H) :=
  if objective.status ≠ .open then (objective, [])
  else
    let limits := objective.definition.budget.exhausted (objective.used usage)
    let reminded := remindLimits key limits objective.budgetNotified
    ({ objective with budgetNotified := reminded.1 }, reminded.2)

def remindBudgets (state : State F H) : State F H × List (Intent F H) :=
  ({ state with
      objectives := state.objectives.map fun key objective =>
        (remindBudget state.usage key objective).1 },
    state.objectives.toList.flatMap fun (key, objective) =>
      (remindBudget state.usage key objective).2)

variable (digest : Canonical F → H)

def objectiveBrief (objective : ObjectiveDefinition F) (ledger : Ledger F)
    (latest : Option Verdict) : ObjectiveBrief F H :=
  { key := objective.key
    title := objective.title
    standardHash := standardHash digest objective
    mode := objective.mode
    checks := objective.checks
    constraints := objective.constraints
    baseline := ledger.baseline.map (·.revision)
    ledger := ledger.entries.map fun entry =>
      { revision := entry.revision, decision := entry.decision, note := entry.note }
    openBlockers := (latest.map fun verdict => verdict.openBlockers.map (·.check)).getD [] }

/-- Execute a pending compaction once it is admitted.  It acts on the planner's
own session, which needs no user approval. -/
def compactWhenIdle (state : State F H) (queueLen : Nat) : State F H × List (Intent F H) :=
  if !state.pendingCompact then (state, [])
  else
    let compact : Compact F H :=
      { sequence := state.compactions
        brief := ⟨state.objectives.toList.map fun (_, objective) =>
          objectiveBrief digest objective.definition objective.ledger objective.latestVerdict⟩ }
    match admitCall compact { idle := true, queueLen } false with
    | .ready =>
      ({ state with pendingCompact := false, compactions := state.compactions + 1 },
        [.execute (.compact compact)])
    | .defer _ | .refuse _ => (state, [])

/-- The trigger rule of one occurrence. -/
def fireOne (state : State F H) : Occurrence H → State F H × List (Intent F H)
  | .notice notice => (state, [.notify notice])
  | .evaluationStarted objective => (state, runChecks state objective)
  | .settled objective decision => afterSettle state objective decision
  | .closed objective =>
    (if compactPolicy state objective = some .onClose then { state with pendingCompact := true }
      else state, [])
  | .hostIdle queueLen => compactWhenIdle digest state queueLen
  | .usageReported => remindBudgets state

/-- Applies the trigger rules to the occurrences, in order. -/
def fire (state : State F H) : List (Occurrence H) → State F H × List (Intent F H)
  | [] => (state, [])
  | occurrence :: rest =>
    let fired := fireOne digest state occurrence
    let others := fire fired.1 rest
    (others.1, fired.2 ++ others.2)

variable [Scalar F] [DecidableEq H]

/-- Reacts to one event: the next state and the intents for the host. -/
def react (state : State F H) (event : Event F H) : State F H × List (Intent F H) :=
  let applied := apply digest state event
  fire digest applied.1 applied.2

end Triggers

end NeigeCalm.Objective
