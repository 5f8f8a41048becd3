import Mathlib.Data.PNat.Basic
import NeigeCalm.Library.Fallible
import NeigeCalm.Library.Records
import NeigeCalm.Worker

/-!
# The input checkpoint of a conversation

A harness snapshot holds the conversation's pending queue, its active batch of submissions, the
latest dispatch attempt of each submission and the decisions of a human about held inputs.
`beginAttempt` checkpoints a crossing before the provider is called; `recordAttemptFact` records
what the provider's adapter observed of it, possibly late, twice or for another attempt.

A method that takes the checkpoint by mutable reference returns its result together with the
checkpoint it leaves, on the error paths too.
-/

namespace NeigeCalm.Conversation

open Library

/-! ## Identities -/

/-- The kinds of canonical identities that a checkpoint refers to. -/
inductive IdKind where
  | message
  | observation
  | turn
  | submission
  | attempt
  | retryIntent
deriving DecidableEq

def isLowerHex (c : Char) : Bool := ('0' ≤ c && c ≤ '9') || ('a' ≤ c && c ≤ 'f')

/-- An identity: exactly 32 lowercase hexadecimal characters. -/
structure InputId (kind : IdKind) where
  value : Text
  parsed : value.length = 32 ∧ value.all isLowerHex = true
deriving DecidableEq

abbrev ConversationMessageId := InputId .message
abbrev SystemObservationId := InputId .observation
abbrev LogicalTurnId := InputId .turn
abbrev InputSubmissionId := InputId .submission
abbrev InputAttemptId := InputId .attempt
abbrev RetryIntentId := InputId .retryIntent

theorem InputId.ext {a b : InputId kind} (same : a.value = b.value) : a = b := by
  cases a
  cases b
  cases same
  rfl

/-- The exact dispatch attempt whose crossing was checkpointed before calling a provider. -/
structure InputAttempt where
  submissionId : InputSubmissionId
  attemptId : InputAttemptId
deriving DecidableEq

/-! ## The pending queue -/

structure MessageRevisionRef where
  messageId : ConversationMessageId
  revision : ℕ+
deriving DecidableEq

inductive AcceptedInputRef where
  | human (message : MessageRevisionRef)
  | system (observationId : SystemObservationId)
deriving DecidableEq

/-- Stable accepted identity, independent of revisions. -/
inductive AcceptedInputIdentity where
  | message (id : ConversationMessageId)
  | system (id : SystemObservationId)
deriving DecidableEq

def AcceptedInputRef.identity : AcceptedInputRef → AcceptedInputIdentity
  | .human message => .message message.messageId
  | .system observationId => .system observationId

inductive CanonicalPendingIdentity where
  | accepted (input : AcceptedInputRef)
  | explicitSuccessor (retryIntentId : RetryIntentId)
deriving DecidableEq

inductive PendingInput where
  | explicitSuccessor (retryIntentId : RetryIntentId) (queuePosition : Nat) (queuedAtMs : Int)
  | human (message : MessageRevisionRef) (queuePosition : Nat) (queuedAtMs : Int)
      (envelopeId : Option Int)
  | system (observationId : SystemObservationId) (queuePosition : Nat) (queuedAtMs : Int)
      (envelopeId : Option Int) (addressable : Bool)
deriving DecidableEq

namespace PendingInput

def queuePosition : PendingInput → Nat
  | .explicitSuccessor _ position _ => position
  | .human _ position _ _ => position
  | .system _ position _ _ _ => position

def identity : PendingInput → CanonicalPendingIdentity
  | .explicitSuccessor retryIntentId _ _ => .explicitSuccessor retryIntentId
  | .human message _ _ _ => .accepted (.human message)
  | .system observationId _ _ _ _ => .accepted (.system observationId)

end PendingInput

/-- The loop over the pending entries, with the identities and the position seen so far. -/
def validatePendingFrom (seen : List AcceptedInputIdentity) (intents : List RetryIntentId)
    (last : Option Nat) : List PendingInput → Except String Unit
  | [] => .ok ()
  | entry :: rest =>
    if last.any (entry.queuePosition ≤ ·) then
      .error "pending queue positions must be strictly increasing"
    else match entry.identity with
      | .accepted input =>
        if input.identity ∈ seen then .error "pending queue repeats an input identity"
        else validatePendingFrom (input.identity :: seen) intents (some entry.queuePosition) rest
      | .explicitSuccessor retryIntentId =>
        if retryIntentId ∈ intents then .error "pending queue repeats an input identity"
        else validatePendingFrom seen (retryIntentId :: intents) (some entry.queuePosition) rest

def validatePendingInputs (pending : List PendingInput) : Except String Unit :=
  validatePendingFrom [] [] none pending

structure ActiveInputSubmissions where
  logicalTurnId : LogicalTurnId
  submissionIds : List InputSubmissionId
deriving DecidableEq

/-! ## Attempts -/

structure InputCorrelationFact where
  provider : AgentProvider
  threadId : Text
  nativeSessionId : Option Text
  localTurnId : Option Text
  nativeTurnId : Option Text
  rpcRequestId : Option Nat
deriving DecidableEq

inductive NativeInputAcceptance where
  | nativeTurn (nativeTurnId : Text)
  | submission (submissionId : InputSubmissionId)
deriving DecidableEq

inductive InputDeliveryFact where
  /-- Pre-call marker: a missing return is uncertain, never proof of no send. -/
  | crossingUnknown
  /-- An observed uncertain report, which a later local refusal cannot clear. -/
  | unknown
  | notDispatched (basis : Text)
  | accepted (basis : Text) (evidence : NativeInputAcceptance)
deriving DecidableEq

def InputDeliveryFact.isAccepted : InputDeliveryFact → Bool
  | .accepted _ _ => true
  | _ => false

def InputDeliveryFact.isNotDispatched : InputDeliveryFact → Bool
  | .notDispatched _ => true
  | _ => false

inductive PlannerPermissionMode where
  | never
  | ask
  | full
deriving DecidableEq

structure FrozenInputInvocation where
  model : Option Text
  effort : Option Text
  permission : PlannerPermissionMode
deriving DecidableEq

inductive InputInvocation where
  | recorded (configuration : FrozenInputInvocation)
  | priorInvocationNotRecorded
deriving DecidableEq

/-- An adapter-owned observed fact. -/
structure InputAttemptFact where
  attempt : InputAttempt
  correlation : InputCorrelationFact
  delivery : InputDeliveryFact
deriving DecidableEq

structure InputAttemptCheckpoint where
  revision : Nat
  invocation : InputInvocation
  attempt : InputAttempt
  correlation : InputCorrelationFact
  delivery : InputDeliveryFact
deriving DecidableEq

def validateFact (attempt : InputAttempt) (correlation : InputCorrelationFact)
    (delivery : InputDeliveryFact) : Except String Unit :=
  if correlation.threadId = [] then .error "dispatch correlation requires a thread identity"
  else if [correlation.nativeSessionId, correlation.localTurnId, correlation.nativeTurnId].any
      (· == some []) then
    .error "native correlation cannot contain empty identities"
  else match delivery with
    | .notDispatched basis =>
      if basis = [] then .error "non-dispatch fact requires its adapter basis" else .ok ()
    | .accepted basis evidence =>
      if basis = [] then .error "accepted fact requires its adapter basis"
      else match evidence with
        | .nativeTurn nativeTurnId =>
          if nativeTurnId = [] ∨ correlation.nativeTurnId ≠ some nativeTurnId then
            .error "native turn receipt requires matching positive native correlation"
          else .ok ()
        | .submission submissionId =>
          if submissionId ≠ attempt.submissionId then
            .error "submission receipt requires the exact input identity"
          else .ok ()
    | .crossingUnknown | .unknown => .ok ()

def InputAttemptCheckpoint.validate (record : InputAttemptCheckpoint) : Except String Unit :=
  validateFact record.attempt record.correlation record.delivery

def InputAttemptFact.validate (report : InputAttemptFact) : Except String Unit :=
  validateFact report.attempt report.correlation report.delivery

/-- What a crossing leaves before the provider is called. -/
def crossingMarker (attempt : InputAttempt) (correlation : InputCorrelationFact)
    (invocation : FrozenInputInvocation) : InputAttemptCheckpoint where
  revision := 0
  invocation := .recorded invocation
  attempt := attempt
  correlation := correlation
  delivery := .crossingUnknown

/-- The record after the report has been taken over; its invocation stays frozen. -/
def InputAttemptFact.settle (report : InputAttemptFact) (revision : Nat)
    (prior : InputAttemptCheckpoint) : InputAttemptCheckpoint :=
  { prior with
    attempt := report.attempt
    correlation := report.correlation
    delivery := report.delivery
    revision := revision }

/-- Absent may become present; present stays what it is. -/
def canRefine {α : Type} [DecidableEq α] (prior reported : Option α) : Bool :=
  prior.all fun value => reported == some value

/-- Every optional identity of `prior` is refined by `reported`. -/
def InputCorrelationFact.canRefine (prior reported : InputCorrelationFact) : Bool :=
  Conversation.canRefine prior.nativeSessionId reported.nativeSessionId &&
    Conversation.canRefine prior.localTurnId reported.localTurnId &&
      Conversation.canRefine prior.nativeTurnId reported.nativeTurnId &&
        Conversation.canRefine prior.rpcRequestId reported.rpcRequestId

/-! ## Decisions of a human -/

structure KeepConversationInputRequest where
  carrierId : Text
  submissionId : Text
  attemptId : Text
  /-- Exact decimal revision. -/
  revision : Text
deriving DecidableEq

structure KeepConversationInputResult where
  carrierId : Text
  submissionId : Text
  attemptId : Text
  revision : Text
  waitingForSettlement : Bool
deriving DecidableEq

inductive HumanInputResolutionDecision where
  | retry (predecessor : KeepConversationInputRequest) (retryIntentId : RetryIntentId)
      (revision : Text) (waitingForSettlement : Bool)
  | keep (request : KeepConversationInputRequest) (result : KeepConversationInputResult)
deriving DecidableEq

structure HumanInputResolutionReceipt where
  key : Text
  principal : Text
  fingerprint : Text
  decision : HumanInputResolutionDecision
deriving DecidableEq

namespace HumanInputResolutionDecision

def request : HumanInputResolutionDecision → KeepConversationInputRequest
  | .retry predecessor _ _ _ => predecessor
  | .keep request _ => request

/-- The carrier, submission, attempt and revision that the decision states. -/
def target : HumanInputResolutionDecision → KeepConversationInputRequest
  | .retry predecessor _ revision _ => { predecessor with revision }
  | .keep _ result =>
    { carrierId := result.carrierId, submissionId := result.submissionId
      attemptId := result.attemptId, revision := result.revision }

end HumanInputResolutionDecision

def byteLength (text : Text) : Nat := (text.map Char.utf8Size).sum

/-- `u64::to_string`. -/
def showU64 (n : Nat) : Text := Nat.toDigits 10 n

/-- `str::parse::<u64>`: decimal digits after an optional plus sign. -/
def parseU64 (text : Text) : Option Nat :=
  let digits := match text with
    | '+' :: rest => rest
    | _ => text
  if digits = [] ∨ ¬digits.all Char.isDigit then none
  else
    let value := digits.foldl (fun n c => 10 * n + (c.toNat - '0'.toNat)) 0
    if value < 2 ^ 64 then some value else none

def checkedSucc (n : Nat) : Option Nat := if n + 1 < 2 ^ 64 then some (n + 1) else none

/-! ## The checkpoint -/

structure ConversationInputCheckpoint where
  nextQueuePosition : Nat
  pending : List PendingInput
  active : Option ActiveInputSubmissions
  /-- At most the latest attempt of each immutable submission. -/
  attempts : List InputAttemptCheckpoint
  receipts : List HumanInputResolutionReceipt
deriving DecidableEq

namespace ConversationInputCheckpoint

def empty : ConversationInputCheckpoint where
  nextQueuePosition := 0
  pending := []
  active := none
  attempts := []
  receipts := []

def validateAllocation (c : ConversationInputCheckpoint) : Except String Unit :=
  if c.pending.getLast?.any (c.nextQueuePosition ≤ ·.queuePosition) then
    .error "pending queue position exceeds its allocation counter"
  else .ok ()

def validateActive : Option ActiveInputSubmissions → Except String Unit
  | none => .ok ()
  | some active =>
    if active.submissionIds = [] ∨ ¬active.submissionIds.Nodup then
      .error "active batch must reference distinct immutable submissions"
    else .ok ()

/-- The loop over the attempts, with the identities seen so far. -/
def validateAttemptsFrom (submissions : List InputSubmissionId) (attempts : List InputAttemptId) :
    List InputAttemptCheckpoint → Except String Unit
  | [] => .ok ()
  | record :: rest => do
    record.validate
    if record.attempt.submissionId ∈ submissions ∨ record.attempt.attemptId ∈ attempts then
      .error "snapshot repeats an input submission or attempt identity"
    else
      validateAttemptsFrom (record.attempt.submissionId :: submissions)
        (record.attempt.attemptId :: attempts) rest

/-- One receipt, apart from the identities it must not share with earlier ones. -/
def validateReceipt (records : List InputAttemptCheckpoint)
    (decision : HumanInputResolutionDecision) : Except String Unit :=
  match parseU64 decision.request.revision with
  | none => .error "invalid Keep revision"
  | some prior => match checkedSucc prior with
    | none => .error "Keep revision overflow"
    | some next =>
      if showU64 prior ≠ decision.request.revision ∨ showU64 next ≠ decision.target.revision ∨
          ¬records.any (fun record =>
            record.attempt.attemptId.value = decision.target.attemptId ∧
              record.attempt.submissionId.value = decision.target.submissionId ∧
              next ≤ record.revision) then
        .error "Human Keep receipt disagrees with its attempt"
      else .ok ()

/-- The loop over the receipts, with the keys and the decided attempts seen so far. -/
def validateReceiptsFrom (records : List InputAttemptCheckpoint) (keys decisions : List Text) :
    List HumanInputResolutionReceipt → Except String Unit
  | [] => .ok ()
  | receipt :: rest => do
    let request := receipt.decision.request
    let target := receipt.decision.target
    if receipt.key = [] ∨ receipt.principal = [] ∨ byteLength receipt.fingerprint ≠ 64 ∨
        receipt.key ∈ keys ∨ target.attemptId ∈ decisions ∨
        request.carrierId ≠ target.carrierId ∨ request.submissionId ≠ target.submissionId ∨
        request.attemptId ≠ target.attemptId then
      .error "invalid Human resolution receipt identity"
    else
      validateReceipt records receipt.decision
      validateReceiptsFrom records (receipt.key :: keys) (target.attemptId :: decisions) rest

def validate (c : ConversationInputCheckpoint) : Except String Unit := do
  validatePendingInputs c.pending
  validateAllocation c
  validateActive c.active
  validateAttemptsFrom [] [] c.attempts
  validateReceiptsFrom c.attempts [] [] c.receipts

/-- The attempt retained for a submission. -/
def attempt (c : ConversationInputCheckpoint) (submission : InputSubmissionId) :
    Option InputAttemptCheckpoint :=
  c.attempts.find? (·.attempt.submissionId = submission)

/-- The attempt retained for a submission, rewritten. -/
def updateAttempt (c : ConversationInputCheckpoint) (submission : InputSubmissionId)
    (f : InputAttemptCheckpoint → InputAttemptCheckpoint) : ConversationInputCheckpoint :=
  { c with attempts := Records.updateFirst (·.attempt.submissionId = submission) f c.attempts }

theorem mem_of_attempt {c : ConversationInputCheckpoint}
    (retained : c.attempt submission = some record) :
    record ∈ c.attempts ∧ record.attempt.submissionId = submission :=
  ⟨List.mem_of_find?_eq_some retained, by simpa using List.find?_some retained⟩

theorem attempt_updateAttempt {c : ConversationInputCheckpoint}
    {f : InputAttemptCheckpoint → InputAttemptCheckpoint}
    (retained : c.attempt submission = some record)
    (own : (f record).attempt.submissionId = submission) :
    (c.updateAttempt submission f).attempt submission = some (f record) :=
  Records.find?_updateFirst retained (by simpa using own)

/-- Checkpoints the crossing before a call. -/
def beginAttempt (c : ConversationInputCheckpoint) (attempt : InputAttempt)
    (correlation : InputCorrelationFact) (invocation : FrozenInputInvocation) :
    Except String Unit × ConversationInputCheckpoint :=
  let marker := crossingMarker attempt correlation invocation
  match c.validate with
  | .error e => (.error e, c)
  | .ok _ => match marker.validate with
    | .error e => (.error e, c)
    | .ok _ =>
      if c.attempts.any (·.attempt.attemptId = marker.attempt.attemptId) then
        (.error "dispatch attempt identity cannot be reused", c)
      else match c.attempt marker.attempt.submissionId with
        | none => (.ok (), { c with attempts := c.attempts ++ [marker] })
        | some prior =>
          if prior.delivery.isNotDispatched then
            (.ok (), c.updateAttempt marker.attempt.submissionId fun _ => marker)
          else (.error "an unresolved or accepted submission cannot dispatch again", c)

/-- Records what the adapter observed of a crossing. -/
def recordAttemptFact (c : ConversationInputCheckpoint) (report : InputAttemptFact) :
    Except String Unit × ConversationInputCheckpoint :=
  match c.validate with
  | .error e => (.error e, c)
  | .ok _ => match report.validate with
    | .error e => (.error e, c)
    | .ok _ =>
      if report.delivery = .crossingUnknown then
        (.error "only begin_attempt can record a crossing marker", c)
      else match c.attempt report.attempt.submissionId with
        | none => (.error "provider report has no durable crossing marker", c)
        | some prior =>
          if prior.attempt = report.attempt ∧ prior.correlation = report.correlation ∧
              prior.delivery = report.delivery then (.ok (), c)
          -- an uncertain report that arrives after the acceptance it belongs to
          else if prior.attempt = report.attempt ∧
              prior.delivery.isAccepted ∧ report.delivery = .unknown ∧
              prior.correlation.provider = report.correlation.provider ∧
              prior.correlation.threadId = report.correlation.threadId ∧
              report.correlation.canRefine prior.correlation then (.ok (), c)
          else if prior.attempt ≠ report.attempt ∨
              ¬(prior.delivery = .crossingUnknown ∨ prior.delivery = .unknown) ∨
              (prior.delivery = .unknown ∧ report.delivery.isNotDispatched) then
            (.error "provider report cannot settle a different or already settled attempt", c)
          else if prior.correlation.provider ≠ report.correlation.provider ∨
              prior.correlation.threadId ≠ report.correlation.threadId ∨
              ¬prior.correlation.canRefine report.correlation then
            (.error "provider report crosses the checkpoint's native correlation", c)
          else match checkedSucc prior.revision with
            | none => (.error "input attempt revision exhausted", c)
            | some revision =>
              (.ok (), c.updateAttempt report.attempt.submissionId (report.settle revision))

/-- The flag of the receipt that decides about an attempt, if there is one. -/
def resolutionWaitingForSettlement (c : ConversationInputCheckpoint) (attempt : InputAttempt) :
    Option Bool :=
  c.receipts.findSome? fun receipt => match receipt.decision with
    | .keep _ result =>
      if result.submissionId = attempt.submissionId.value ∧
          result.attemptId = attempt.attemptId.value then some result.waitingForSettlement
      else none
    | .retry predecessor _ _ waitingForSettlement =>
      if predecessor.submissionId = attempt.submissionId.value ∧
          predecessor.attemptId = attempt.attemptId.value then some waitingForSettlement
      else none

def isHumanResolved (c : ConversationInputCheckpoint) (attempt : InputAttempt) : Bool :=
  (c.resolutionWaitingForSettlement attempt).isSome

end ConversationInputCheckpoint

/-! ## What a call does -/

inductive Call where
  | beginAttempt (attempt : InputAttempt) (correlation : InputCorrelationFact)
      (invocation : FrozenInputInvocation)
  | recordAttemptFact (report : InputAttemptFact)
deriving DecidableEq

namespace Call

def submission : Call → InputSubmissionId
  | .beginAttempt attempt _ _ => attempt.submissionId
  | .recordAttemptFact report => report.attempt.submissionId

def apply (c : ConversationInputCheckpoint) : Call →
    Except String Unit × ConversationInputCheckpoint
  | .beginAttempt attempt correlation invocation =>
    c.beginAttempt attempt correlation invocation
  | .recordAttemptFact report => c.recordAttemptFact report

end Call

/-- Where the delivery recorded for an attempt can go. -/
inductive InputDeliveryFact.Advances : InputDeliveryFact → InputDeliveryFact → Prop
  | reported (isReport : delivery ≠ .crossingUnknown) :
      Advances .crossingUnknown delivery
  | stillUnknown : Advances .unknown .unknown
  | acknowledged (basis : Text) (evidence : NativeInputAcceptance) :
      Advances .unknown (.accepted basis evidence)

/-- Provider and thread stay; each optional identity stays once it is present. -/
structure InputCorrelationFact.Refines (prior reported : InputCorrelationFact) : Prop where
  provider : reported.provider = prior.provider
  threadId : reported.threadId = prior.threadId
  nativeSessionId : ∀ id, prior.nativeSessionId = some id → reported.nativeSessionId = some id
  localTurnId : ∀ id, prior.localTurnId = some id → reported.localTurnId = some id
  nativeTurnId : ∀ id, prior.nativeTurnId = some id → reported.nativeTurnId = some id
  rpcRequestId : ∀ id, prior.rpcRequestId = some id → reported.rpcRequestId = some id

/-- What a call returns and leaves, with the checks that it passed on the way. -/
inductive Outcome (c : ConversationInputCheckpoint) :
    Call → Except String Unit × ConversationInputCheckpoint → Prop
  | refused (call : Call) (e : String) : Outcome c call (.error e, c)
  | appended (attempt : InputAttempt) (correlation : InputCorrelationFact)
      (invocation : FrozenInputInvocation)
      (wellFormed : (crossingMarker attempt correlation invocation).validate = .ok ())
      (unused : ∀ record ∈ c.attempts, record.attempt.attemptId ≠ attempt.attemptId)
      (first : c.attempt attempt.submissionId = none) :
      Outcome c (.beginAttempt attempt correlation invocation)
        (.ok (), { c with attempts :=
          c.attempts ++ [crossingMarker attempt correlation invocation] })
  | replaced (attempt : InputAttempt) (correlation : InputCorrelationFact)
      (invocation : FrozenInputInvocation) (prior : InputAttemptCheckpoint)
      (wellFormed : (crossingMarker attempt correlation invocation).validate = .ok ())
      (unused : ∀ record ∈ c.attempts, record.attempt.attemptId ≠ attempt.attemptId)
      (retained : c.attempt attempt.submissionId = some prior)
      (idle : prior.delivery.isNotDispatched = true) :
      Outcome c (.beginAttempt attempt correlation invocation)
        (.ok (), c.updateAttempt attempt.submissionId
          fun _ => crossingMarker attempt correlation invocation)
  | covered (report : InputAttemptFact) : Outcome c (.recordAttemptFact report) (.ok (), c)
  | settled (report : InputAttemptFact) (prior : InputAttemptCheckpoint)
      (wellFormed : report.validate = .ok ())
      (retained : c.attempt report.attempt.submissionId = some prior)
      (same : prior.attempt = report.attempt)
      (news : ¬(prior.correlation = report.correlation ∧ prior.delivery = report.delivery))
      (advances : prior.delivery.Advances report.delivery)
      (refines : prior.correlation.Refines report.correlation) :
      Outcome c (.recordAttemptFact report)
        (.ok (), c.updateAttempt report.attempt.submissionId (report.settle (prior.revision + 1)))

theorem canRefine_iff {α : Type} [DecidableEq α] {prior reported : Option α} :
    canRefine prior reported = true ↔ ∀ value, prior = some value → reported = some value := by
  cases prior <;> simp [canRefine]

theorem InputCorrelationFact.Refines.of_canRefine {prior reported : InputCorrelationFact}
    (provider : prior.provider = reported.provider) (threadId : prior.threadId = reported.threadId)
    (can : prior.canRefine reported = true) : prior.Refines reported := by
  simp only [InputCorrelationFact.canRefine, Bool.and_eq_true, canRefine_iff] at can
  obtain ⟨⟨⟨nativeSessionId, localTurnId⟩, nativeTurnId⟩, rpcRequestId⟩ := can
  exact ⟨provider.symm, threadId.symm, nativeSessionId, localTurnId, nativeTurnId, rpcRequestId⟩

theorem InputDeliveryFact.Advances.of_guard {prior reported : InputDeliveryFact}
    (isReport : reported ≠ .crossingUnknown) (isOpen : prior = .crossingUnknown ∨ prior = .unknown)
    (noRefusal : ¬(prior = .unknown ∧ reported.isNotDispatched)) : prior.Advances reported := by
  rcases isOpen with rfl | rfl
  · exact .reported isReport
  · cases reported with
    | crossingUnknown => exact absurd rfl isReport
    | unknown => exact .stillUnknown
    | notDispatched => exact absurd ⟨rfl, rfl⟩ noRefusal
    | accepted basis evidence => exact .acknowledged basis evidence

theorem checkedSucc_eq_some (fits : checkedSucc n = some next) : next = n + 1 := by
  unfold checkedSucc at fits
  split at fits
  · exact (Option.some.inj fits).symm
  · cases fits

theorem beginAttempt_outcome (c : ConversationInputCheckpoint) (attempt : InputAttempt)
    (correlation : InputCorrelationFact) (invocation : FrozenInputInvocation) :
    Outcome c (.beginAttempt attempt correlation invocation)
      (c.beginAttempt attempt correlation invocation) := by
  unfold ConversationInputCheckpoint.beginAttempt
  simp only
  split
  · exact .refused _ _
  split
  · exact .refused _ _
  next wellFormed =>
  split
  · exact .refused _ _
  next reused =>
  have unused : ∀ record ∈ c.attempts, record.attempt.attemptId ≠ attempt.attemptId := by
    intro record member same
    exact reused (List.any_eq_true.mpr ⟨record, member, decide_eq_true same⟩)
  split
  · next first => exact .appended _ _ _ wellFormed unused first
  next prior retained =>
  split
  · next idle => exact .replaced _ _ _ prior wellFormed unused retained idle
  · exact .refused _ _

theorem recordAttemptFact_outcome (c : ConversationInputCheckpoint) (report : InputAttemptFact) :
    Outcome c (.recordAttemptFact report) (c.recordAttemptFact report) := by
  unfold ConversationInputCheckpoint.recordAttemptFact
  split
  · exact .refused _ _
  split
  · exact .refused _ _
  next wellFormed =>
  split
  · exact .refused _ _
  next isReport =>
  split
  · exact .refused _ _
  next prior retained =>
  split
  · exact .covered _
  next replay =>
  split
  · exact .covered _
  split
  · exact .refused _ _
  next settles =>
  split
  · exact .refused _ _
  next native =>
  split
  · exact .refused _ _
  next revision fits =>
  obtain ⟨same, settles⟩ := not_or.mp settles
  obtain ⟨isOpen, noRefusal⟩ := not_or.mp settles
  simp only [not_or, not_not] at native
  obtain rfl := checkedSucc_eq_some fits
  have same := not_not.mp same
  exact .settled _ prior wellFormed retained same (fun unchanged => replay ⟨same, unchanged⟩)
    (.of_guard isReport (not_not.mp isOpen) noRefusal)
    (.of_canRefine native.1 native.2.1 native.2.2)

/-- **Every call.**  Whatever the checkpoint holds, a call ends in one of these ways. -/
theorem Call.outcome (c : ConversationInputCheckpoint) (call : Call) :
    Outcome c call (call.apply c) := by
  cases call with
  | beginAttempt attempt correlation invocation =>
    exact beginAttempt_outcome c attempt correlation invocation
  | recordAttemptFact report => exact recordAttemptFact_outcome c report

end NeigeCalm.Conversation
