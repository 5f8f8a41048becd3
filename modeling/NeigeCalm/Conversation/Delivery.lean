import NeigeCalm.Conversation.Checkpoint
import NeigeCalm.Library.Machine

/-!
# Delivery facts only move forward

The record of an attempt starts as a crossing marker and is then settled by the reports that
name it.  `Settles` is one such settlement and `Later` any number of them; every call keeps the
records of the other submissions and moves its own by at most one settlement or one new attempt.
-/

namespace NeigeCalm.Conversation

open Library Machine ConversationInputCheckpoint

/-! ## The record of one attempt -/

/-- A report has been taken over into the record of its attempt. -/
structure InputAttemptCheckpoint.Settles (prior next : InputAttemptCheckpoint) : Prop where
  attempt : next.attempt = prior.attempt
  invocation : next.invocation = prior.invocation
  news : ¬(prior.correlation = next.correlation ∧ prior.delivery = next.delivery)
  delivery : prior.delivery.Advances next.delivery
  correlation : prior.correlation.Refines next.correlation
  revision : next.revision = prior.revision + 1

/-- What reports alone can make of a record. -/
def InputAttemptCheckpoint.Later : InputAttemptCheckpoint → InputAttemptCheckpoint → Prop :=
  Relation.ReflTransGen Settles

/-- An acceptance or a proof that nothing was sent. -/
def InputDeliveryFact.IsFinal (delivery : InputDeliveryFact) : Prop :=
  delivery.isAccepted = true ∨ delivery.isNotDispatched = true

theorem InputDeliveryFact.IsFinal.not_advances {prior next : InputDeliveryFact}
    (final : prior.IsFinal) : ¬prior.Advances next := by
  intro advances
  cases advances <;> simp [IsFinal, isAccepted, isNotDispatched] at final

theorem InputCorrelationFact.Refines.refl (correlation : InputCorrelationFact) :
    correlation.Refines correlation :=
  ⟨rfl, rfl, fun _ => id, fun _ => id, fun _ => id, fun _ => id⟩

theorem InputCorrelationFact.Refines.trans {a b c : InputCorrelationFact} (first : a.Refines b)
    (second : b.Refines c) : a.Refines c where
  provider := second.provider.trans first.provider
  threadId := second.threadId.trans first.threadId
  nativeSessionId id present := second.nativeSessionId id (first.nativeSessionId id present)
  localTurnId id present := second.localTurnId id (first.localTurnId id present)
  nativeTurnId id present := second.nativeTurnId id (first.nativeTurnId id present)
  rpcRequestId id present := second.rpcRequestId id (first.rpcRequestId id present)

namespace InputAttemptCheckpoint.Later

variable {prior : InputAttemptCheckpoint}

theorem attempt (later : prior.Later next) : next.attempt = prior.attempt := by
  induction later with
  | refl => rfl
  | tail _ settles ih => exact settles.attempt.trans ih

theorem correlation (later : prior.Later next) : prior.correlation.Refines next.correlation := by
  induction later with
  | refl => exact .refl _
  | tail _ settles ih => exact ih.trans settles.correlation

theorem revision (later : prior.Later next) : prior.revision ≤ next.revision := by
  induction later with
  | refl => exact Nat.le_refl _
  | tail _ settles ih =>
    rw [settles.revision]
    exact Nat.le_succ_of_le ih

theorem eq_of_isFinal (later : prior.Later next) (final : prior.delivery.IsFinal) :
    next = prior := by
  rcases Relation.ReflTransGen.cases_head later with same | ⟨_, settles, -⟩
  · exact same.symm
  · exact absurd settles.delivery final.not_advances

end InputAttemptCheckpoint.Later

/-! ## One call -/

/-- What a call can make of the record retained for its submission. -/
inductive Call.Moves : Call → Option InputAttemptCheckpoint → Option InputAttemptCheckpoint → Prop
  | kept (call : Call) (record : Option InputAttemptCheckpoint) : Moves call record record
  | begun (attempt : InputAttempt) (correlation : InputCorrelationFact)
      (invocation : FrozenInputInvocation) (prior : Option InputAttemptCheckpoint)
      (idle : ∀ record, prior = some record → record.delivery.isNotDispatched = true)
      (changes : ∀ record, prior = some record → record.attempt.attemptId ≠ attempt.attemptId) :
      Moves (.beginAttempt attempt correlation invocation) prior
        (some (crossingMarker attempt correlation invocation))
  | settled (report : InputAttemptFact) (prior next : InputAttemptCheckpoint)
      (named : prior.attempt = report.attempt) (settles : prior.Settles next) :
      Moves (.recordAttemptFact report) (some prior) (some next)

/-- The records of a submission, in the order of the checkpoint. -/
def ConversationInputCheckpoint.attemptsOf (c : ConversationInputCheckpoint)
    (submission : InputSubmissionId) : List InputAttemptCheckpoint :=
  c.attempts.filter (·.attempt.submissionId = submission)

theorem ConversationInputCheckpoint.head?_attemptsOf (c : ConversationInputCheckpoint)
    (submission : InputSubmissionId) : (c.attemptsOf submission).head? = c.attempt submission :=
  List.head?_filter

variable {c : ConversationInputCheckpoint}

theorem ConversationInputCheckpoint.attemptsOf_updateAttempt
    {f : InputAttemptCheckpoint → InputAttemptCheckpoint}
    (retained : c.attempt submission = some record)
    (own : (f record).attempt.submissionId = submission) (differs : other ≠ submission) :
    (c.updateAttempt submission f).attemptsOf other = c.attemptsOf other := by
  apply Records.filter_updateFirst retained
  · have here := (mem_of_attempt retained).2
    simpa [here] using differs.symm
  · simpa [own] using differs.symm

namespace Outcome

variable {c : ConversationInputCheckpoint}
  {result : Except String Unit × ConversationInputCheckpoint}

theorem unchanged_of_error (outcome : Outcome c call result) (failed : result.1 = .error e) :
    result.2 = c := by
  cases outcome <;> first | rfl | cases failed

/-- Only the records of the call's own submission can differ. -/
theorem attemptsOf_other (outcome : Outcome c call result) (other : submission ≠ call.submission) :
    result.2.attemptsOf submission = c.attemptsOf submission := by
  cases outcome with
  | refused | covered => rfl
  | appended attempt =>
    have skip : ¬attempt.submissionId = submission := fun same => other same.symm
    simp [attemptsOf, crossingMarker, skip]
  | replaced _ _ _ _ _ _ retained | settled _ _ _ retained =>
    exact attemptsOf_updateAttempt retained rfl other

/-- The record of the call's own submission. -/
theorem moves (outcome : Outcome c call result) :
    call.Moves (c.attempt call.submission) (result.2.attempt call.submission) := by
  cases outcome with
  | refused | covered => exact .kept _ _
  | appended attempt correlation invocation _ _ first =>
    have now : ({ c with attempts := c.attempts ++
        [crossingMarker attempt correlation invocation] }).attempt
          attempt.submissionId = some (crossingMarker attempt correlation invocation) := by
      have absent : c.attempts.find? (·.attempt.submissionId = attempt.submissionId) = none := first
      simp [ConversationInputCheckpoint.attempt, List.find?_append, absent, crossingMarker]
    change Call.Moves _ (c.attempt attempt.submissionId) _
    rw [first]
    change Call.Moves _ none (ConversationInputCheckpoint.attempt _ attempt.submissionId)
    rw [now]
    exact .begun attempt correlation invocation none (fun _ absent => nomatch absent)
      (fun _ absent => nomatch absent)
  | replaced attempt correlation invocation prior _ unused retained idle =>
    have now : (c.updateAttempt attempt.submissionId fun _ =>
        crossingMarker attempt correlation invocation).attempt attempt.submissionId =
          some (crossingMarker attempt correlation invocation) :=
      ConversationInputCheckpoint.attempt_updateAttempt retained rfl
    change Call.Moves _ (c.attempt attempt.submissionId)
      (ConversationInputCheckpoint.attempt _ attempt.submissionId)
    rw [now, retained]
    refine .begun attempt correlation invocation (some prior) ?_ ?_
    · rintro _ ⟨⟩
      exact idle
    · rintro _ ⟨⟩
      exact unused prior (ConversationInputCheckpoint.mem_of_attempt retained).1
  | settled report prior _ retained same news advances refines =>
    have now : (c.updateAttempt report.attempt.submissionId
        (report.settle (prior.revision + 1))).attempt report.attempt.submissionId =
          some (report.settle (prior.revision + 1) prior) :=
      ConversationInputCheckpoint.attempt_updateAttempt retained rfl
    change Call.Moves _ (c.attempt report.attempt.submissionId)
      (ConversationInputCheckpoint.attempt _ report.attempt.submissionId)
    rw [now, retained]
    exact .settled report prior _ same ⟨same.symm, rfl, news, advances, refines, rfl⟩

end Outcome

/-! ## Whole sequences of calls -/

/-- The crossing that a call begins, if it is a `beginAttempt` that succeeds. -/
def Call.begins (c : ConversationInputCheckpoint) : Call → List InputAttempt
  | .beginAttempt attempt correlation invocation =>
    match (c.beginAttempt attempt correlation invocation).1 with
    | .ok _ => [attempt]
    | .error _ => []
  | .recordAttemptFact _ => []

/-- The calls as a machine whose outputs are the crossings that it begins. -/
def step (c : ConversationInputCheckpoint) (call : Call) :
    ConversationInputCheckpoint × List InputAttempt :=
  ((call.apply c).2, call.begins c)

/-- A new attempt of the submission is begun somewhere in the sequence, over a record that is
`Later` than the one it started with and not dispatched. -/
def BegunAfter (c : ConversationInputCheckpoint) (submission : InputSubmissionId)
    (record : InputAttemptCheckpoint) (calls : List Call) : Prop :=
  ∃ before attempt correlation invocation after prior,
    calls = before ++ .beginAttempt attempt correlation invocation :: after ∧
      attempt.submissionId = submission ∧
      (run step c before).attempt submission = some prior ∧
      record.Later prior ∧ prior.delivery.isNotDispatched = true ∧
      ((run step c before).beginAttempt attempt correlation invocation).1 = .ok ()

theorem attempt_step_other {call : Call} (other : submission ≠ call.submission) :
    (call.apply c).2.attempt submission = c.attempt submission := by
  rw [← head?_attemptsOf, (call.outcome c).attemptsOf_other other, head?_attemptsOf]

/-- A retained record is still there after one call, settled at most once, or a new attempt took
its place. -/
theorem attempt_step (retained : c.attempt submission = some record) (call : Call) :
    (∃ next, (call.apply c).2.attempt submission = some next ∧ record.Later next) ∨
      BegunAfter c submission record [call] := by
  by_cases own : submission = call.submission
  · have moved := (call.outcome c).moves
    rw [← own, retained] at moved
    generalize reached : (call.apply c).2.attempt submission = next at moved
    cases moved with
    | kept => exact .inl ⟨record, rfl, .refl⟩
    | begun attempt correlation invocation _ idle changes =>
      refine .inr ⟨[], attempt, correlation, invocation, [], record, rfl, own.symm, retained,
        .refl, idle record rfl, ?_⟩
      -- a refused call would have left the record in place
      cases result : (c.beginAttempt attempt correlation invocation).1 with
      | ok => exact result
      | error =>
        rw [(Call.outcome c (.beginAttempt attempt correlation invocation)).unchanged_of_error
          result, retained] at reached
        have same := Option.some.inj reached
        exact absurd (by rw [same]; rfl) (changes record rfl)
    | settled _ _ next _ settles => exact .inl ⟨next, rfl, .single settles⟩
  · exact .inl ⟨record, (attempt_step_other own).trans retained, .refl⟩

theorem BegunAfter.later (begun : BegunAfter (first.apply c).2 submission next calls)
    (later : record.Later next) : BegunAfter c submission record (first :: calls) := by
  obtain ⟨before, attempt, correlation, invocation, after, prior, split, own, retained, lasts,
    idle, accepted⟩ := begun
  exact ⟨first :: before, attempt, correlation, invocation, after, prior, by rw [split]; rfl, own,
    retained, later.trans lasts, idle, accepted⟩

theorem BegunAfter.append (begun : BegunAfter c submission record calls) (more : List Call) :
    BegunAfter c submission record (calls ++ more) := by
  obtain ⟨before, attempt, correlation, invocation, after, prior, split, rest⟩ := begun
  exact ⟨before, attempt, correlation, invocation, after ++ more, prior,
    by rw [split, List.append_assoc]; rfl, rest⟩

theorem attempt_run (retained : c.attempt submission = some record) (calls : List Call) :
    (∃ next, (run step c calls).attempt submission = some next ∧ record.Later next) ∨
      BegunAfter c submission record calls := by
  induction calls generalizing c record with
  | nil => exact .inl ⟨record, retained, .refl⟩
  | cons call rest ih =>
    rcases attempt_step retained call with ⟨_, reached, later⟩ | begun
    · rcases ih reached with ⟨last, ends, lasts⟩ | begun
      · exact .inl ⟨last, ends, later.trans lasts⟩
      · exact .inr (begun.later later)
    · exact .inr (begun.append rest)

/-- **Delivery facts only move forward.**  After any sequence of calls, the next one changes
nothing when it fails, keeps the records of the other submissions, and moves the record of its own
submission by at most one settlement or one new attempt.  Over further calls a record is only
ever settled, its identities only ever refined, and a final fact stays as it is, until a new
attempt of the submission is begun over a record that was not dispatched. -/
theorem delivery_facts_move_forward (start : ConversationInputCheckpoint) (calls : List Call) :
    let c := run step start calls
    (∀ call : Call, (∀ e, (call.apply c).1 = .error e → (call.apply c).2 = c) ∧
      (∀ submission, submission ≠ call.submission →
        (call.apply c).2.attemptsOf submission = c.attemptsOf submission) ∧
      call.Moves (c.attempt call.submission) ((call.apply c).2.attempt call.submission)) ∧
    ∀ submission record, c.attempt submission = some record → ∀ more : List Call,
      BegunAfter c submission record more ∨
      ∃ next, (run step c more).attempt submission = some next ∧ record.Later next ∧
        next.attempt = record.attempt ∧ record.correlation.Refines next.correlation ∧
        record.revision ≤ next.revision ∧ (record.delivery.IsFinal → next = record) := by
  refine ⟨fun call => ⟨fun e failed => (call.outcome _).unchanged_of_error failed,
    fun submission other => (call.outcome _).attemptsOf_other other, (call.outcome _).moves⟩, ?_⟩
  intro submission record retained more
  rcases attempt_run retained more with ⟨next, reached, later⟩ | begun
  · exact .inr ⟨next, reached, later, later.attempt, later.correlation, later.revision,
      later.eq_of_isFinal⟩
  · exact .inl begun

end NeigeCalm.Conversation
