import Mathlib.Data.List.Induction
import NeigeCalm.Conversation.Delivery

/-!
# What keeps a checkpoint consistent

`validate` ties every receipt of a human decision to the retained attempt that it names.  Reports
only refine the record of an attempt, so they keep the checkpoint valid.  A new attempt overwrites
the record of its predecessor: the checkpoint stays valid exactly when no receipt names that one,
and an identity is begun again exactly when its record has been overwritten before.
-/

namespace NeigeCalm.Conversation

open Library List Machine Fallible Records

/-! ## What `validate` asks for -/

namespace HumanInputResolutionDecision

/-- The decision states this attempt of this submission. -/
def Names (decision : HumanInputResolutionDecision) (attempt : InputAttempt) : Prop :=
  decision.target.submissionId = attempt.submissionId.value ∧
    decision.target.attemptId = attempt.attemptId.value

/-- `next` is the revision that the decision produced. -/
def Produces (decision : HumanInputResolutionDecision) (next : Nat) : Prop :=
  ∃ prior, parseU64 decision.request.revision = some prior ∧ checkedSucc prior = some next ∧
    showU64 prior = decision.request.revision ∧ showU64 next = decision.target.revision

theorem Names.attemptId_eq {decision : HumanInputResolutionDecision} (first : decision.Names a)
    (second : decision.Names b) : a.attemptId = b.attemptId :=
  InputId.ext (first.2.symm.trans second.2)

end HumanInputResolutionDecision

namespace ConversationInputCheckpoint

variable {c : ConversationInputCheckpoint}

theorem isHumanResolved_iff {attempt : InputAttempt} :
    c.isHumanResolved attempt = true ↔ ∃ receipt ∈ c.receipts, receipt.decision.Names attempt := by
  rw [isHumanResolved, resolutionWaitingForSettlement, findSome?_isSome_iff]
  refine exists_congr fun receipt => and_congr_right fun _ => ?_
  cases decided : receipt.decision <;>
    simp [HumanInputResolutionDecision.Names, HumanInputResolutionDecision.target]

theorem validateReceipt_ok :
    validateReceipt records decision = .ok () ↔ ∃ next, decision.Produces next ∧
      ∃ record ∈ records, decision.Names record.attempt ∧ next ≤ record.revision := by
  unfold validateReceipt
  constructor
  · intro done
    split at done
    · cases done
    next prior parsed =>
    split at done
    · cases done
    next next fits =>
    split at done
    · cases done
    next agrees =>
    simp only [not_or, not_not, any_eq_true, decide_eq_true_eq] at agrees
    obtain ⟨canonical, produced, record, member, attemptId, submissionId, enough⟩ := agrees
    exact ⟨next, ⟨prior, parsed, fits, canonical, produced⟩, record, member,
      ⟨submissionId.symm, attemptId.symm⟩, enough⟩
  · rintro ⟨next, ⟨_, parsed, fits, canonical, produced⟩, record, member, named, enough⟩
    have backed : records.any (fun record =>
        record.attempt.attemptId.value = decision.target.attemptId ∧
          record.attempt.submissionId.value = decision.target.submissionId ∧
          next ≤ record.revision) = true :=
      any_eq_true.mpr ⟨record, member, decide_eq_true ⟨named.2.symm, named.1.symm, enough⟩⟩
    simp only [parsed, fits, canonical, produced, backed, ne_eq, not_true, or_self, if_false]

theorem validateAttemptsFrom_ok {attempts : List InputAttemptId} :
    validateAttemptsFrom submissions attempts records = .ok () ↔
      (∀ record ∈ records, record.validate = .ok ()) ∧
      (records.map (·.attempt.submissionId)).Nodup ∧ (records.map (·.attempt.attemptId)).Nodup ∧
      ∀ record ∈ records, record.attempt.submissionId ∉ submissions ∧
        record.attempt.attemptId ∉ attempts := by
  induction records generalizing submissions attempts with
  | nil => simp [validateAttemptsFrom]
  | cons _ _ ih =>
    rw [validateAttemptsFrom, bind_eq_ok]
    simp only [forall_mem_cons, map_cons, nodup_cons]
    constructor
    · rintro ⟨_, passes, others⟩
      split at others
      · cases others
      next fresh =>
      obtain ⟨valid, bySubmission, byAttempt, apart⟩ := ih.mp others
      simp only [mem_cons, not_or] at apart
      refine ⟨⟨passes, valid⟩, ⟨?_, bySubmission⟩, ⟨?_, byAttempt⟩, not_or.mp fresh,
        fun other member => ⟨(apart other member).1.2, (apart other member).2.2⟩⟩
      · intro repeated
        obtain ⟨other, member, same⟩ := mem_map.mp repeated
        exact (apart other member).1.1 same
      · intro repeated
        obtain ⟨other, member, same⟩ := mem_map.mp repeated
        exact (apart other member).2.1 same
    · rintro ⟨⟨passes, valid⟩, ⟨newSubmission, bySubmission⟩, ⟨newAttempt, byAttempt⟩, fresh, apart⟩
      refine ⟨(), passes, ?_⟩
      rw [if_neg (not_or.mpr fresh)]
      refine ih.mpr ⟨valid, bySubmission, byAttempt, fun other member => ⟨?_, ?_⟩⟩
      · rw [mem_cons, not_or]
        exact ⟨fun same => newSubmission (same ▸ mem_map_of_mem member), (apart other member).1⟩
      · rw [mem_cons, not_or]
        exact ⟨fun same => newAttempt (same ▸ mem_map_of_mem member), (apart other member).2⟩

/-- Once the receipts pass against some records, only what ties them to the records is left to
check against others. -/
theorem validateReceiptsFrom_ok {records others : List InputAttemptCheckpoint}
    {keys decisions : List Text} {receipts : List HumanInputResolutionReceipt}
    (passed : validateReceiptsFrom records keys decisions receipts = .ok ()) :
    validateReceiptsFrom others keys decisions receipts = .ok () ↔
      ∀ receipt ∈ receipts, validateReceipt others receipt.decision = .ok () := by
  induction receipts generalizing keys decisions with
  | nil => simp [validateReceiptsFrom]
  | cons _ _ ih =>
    rw [validateReceiptsFrom] at passed ⊢
    split at passed
    · cases passed
    next identified =>
    obtain ⟨_, -, passed⟩ := bind_eq_ok.mp passed
    rw [if_neg identified, bind_eq_ok, forall_mem_cons]
    simp only [ih passed, Unique.exists_iff]

/-- The parts of a checkpoint that no attempt takes part in. -/
def QueueValid (c : ConversationInputCheckpoint) : Prop :=
  validatePendingInputs c.pending = .ok () ∧ validateAllocation c = .ok () ∧
    validateActive c.active = .ok ()

theorem validate_ok :
    c.validate = .ok () ↔ c.QueueValid ∧ validateAttemptsFrom [] [] c.attempts = .ok () ∧
      validateReceiptsFrom c.attempts [] [] c.receipts = .ok () := by
  simp only [validate, bind_eq_ok, Unique.exists_iff, QueueValid, and_assoc]

/-- Other records in a valid checkpoint: they must be valid, distinct and back every receipt. -/
theorem validate_with_attempts (valid : c.validate = .ok ())
    (records : List InputAttemptCheckpoint) :
    ({ c with attempts := records }).validate = .ok () ↔
      ((∀ record ∈ records, record.validate = .ok ()) ∧
        (records.map (·.attempt.submissionId)).Nodup ∧
        (records.map (·.attempt.attemptId)).Nodup) ∧
      ∀ receipt ∈ c.receipts, validateReceipt records receipt.decision = .ok () := by
  obtain ⟨queue, -, receipts⟩ := validate_ok.mp valid
  rw [validate_ok]
  simp only [validateReceiptsFrom_ok receipts, validateAttemptsFrom_ok, not_mem_nil,
    not_false_eq_true, and_self, implies_true, and_true]
  exact and_iff_right queue

end ConversationInputCheckpoint

/-! ## Calls that keep a checkpoint valid -/

namespace ConversationInputCheckpoint

variable {c : ConversationInputCheckpoint}

theorem attempts_valid (valid : c.validate = .ok ()) :
    ((∀ record ∈ c.attempts, record.validate = .ok ()) ∧
      (c.attempts.map (·.attempt.submissionId)).Nodup ∧
      (c.attempts.map (·.attempt.attemptId)).Nodup) ∧
    ∀ receipt ∈ c.receipts, validateReceipt c.attempts receipt.decision = .ok () :=
  (validate_with_attempts valid c.attempts).mp valid

/-- Records that back whatever the earlier ones backed keep the receipts valid. -/
theorem receipts_backed (backed : validateReceipt records decision = .ok ())
    (kept : ∀ record ∈ records, decision.Names record.attempt →
      ∃ other ∈ others, other.attempt = record.attempt ∧ record.revision ≤ other.revision) :
    validateReceipt others decision = .ok () := by
  obtain ⟨next, produced, record, member, named, enough⟩ := validateReceipt_ok.mp backed
  obtain ⟨other, isOther, same, grown⟩ := kept record member named
  exact validateReceipt_ok.mpr ⟨next, produced, other, isOther, same ▸ named,
    Nat.le_trans enough grown⟩

/-- The first attempt of a submission. -/
theorem validate_appended (valid : c.validate = .ok ()) (wellFormed : marker.validate = .ok ())
    (unused : ∀ record ∈ c.attempts, record.attempt.attemptId ≠ marker.attempt.attemptId)
    (first : c.attempt marker.attempt.submissionId = none) :
    ({ c with attempts := c.attempts ++ [marker] }).validate =
      .ok () := by
  obtain ⟨⟨passes, bySubmission, byAttempt⟩, backed⟩ := attempts_valid valid
  have unseen : ∀ record ∈ c.attempts,
      record.attempt.submissionId ≠ marker.attempt.submissionId := by
    simpa using find?_eq_none.mp first
  refine (validate_with_attempts valid _).mpr ⟨⟨?_, ?_, ?_⟩, ?_⟩
  · simpa [or_imp, forall_and] using ⟨passes, wellFormed⟩
  · simpa [nodup_append, bySubmission] using unseen
  · simpa [nodup_append, byAttempt] using unused
  · intro receipt member
    refine receipts_backed (backed receipt member) fun record isRecord _ => ?_
    exact ⟨record, mem_append_left _ isRecord, rfl, Nat.le_refl _⟩

/-- A report that refines the record of its attempt. -/
theorem validate_settled (valid : c.validate = .ok ()) {report : InputAttemptFact}
    (wellFormed : report.validate = .ok ())
    (retained : c.attempt report.attempt.submissionId = some prior)
    (same : prior.attempt = report.attempt) :
    (c.updateAttempt report.attempt.submissionId
      (report.settle (prior.revision + 1))).validate = .ok () := by
  obtain ⟨⟨passes, bySubmission, byAttempt⟩, backed⟩ := attempts_valid valid
  refine (validate_with_attempts valid _).mpr ⟨⟨?_, ?_, ?_⟩, ?_⟩
  · intro record member
    rcases mem_updateFirst retained member with rfl | member
    · exact wellFormed
    · exact passes record member
  · rw [map_updateFirst retained (by rw [same]; rfl)]
    exact bySubmission
  · rw [map_updateFirst retained (by rw [same]; rfl)]
    exact byAttempt
  · intro receipt member
    refine receipts_backed (backed receipt member) fun record isRecord _ => ?_
    by_cases isPrior : record = prior
    · exact ⟨_, updated_mem_updateFirst retained, by rw [isPrior, same]; rfl,
        by rw [isPrior]; exact Nat.le_succ _⟩
    · exact ⟨record, mem_updateFirst_of_ne retained isRecord isPrior, rfl, Nat.le_refl _⟩

/-- A new attempt in the place of its predecessor: the receipts that name the predecessor, and
only those, are left without an attempt. -/
theorem validate_replaced (valid : c.validate = .ok ()) {marker prior : InputAttemptCheckpoint}
    (wellFormed : marker.validate = .ok ())
    (unused : ∀ record ∈ c.attempts, record.attempt.attemptId ≠ marker.attempt.attemptId)
    (retained : c.attempt marker.attempt.submissionId = some prior) :
    (c.updateAttempt marker.attempt.submissionId fun _ => marker).validate = .ok () ↔
      c.isHumanResolved prior.attempt = false := by
  obtain ⟨⟨passes, bySubmission, byAttempt⟩, backed⟩ := attempts_valid valid
  rw [← Bool.not_eq_true, isHumanResolved_iff]
  constructor
  · rintro kept ⟨receipt, member, named⟩
    obtain ⟨_, -, record, isRecord, names, -⟩ := validateReceipt_ok.mp
      (((validate_with_attempts valid _).mp kept).2 receipt member)
    have same := names.attemptId_eq named
    rcases key_ne_of_mem_updateFirst retained byAttempt isRecord with rfl | ⟨-, differs⟩
    · exact unused prior (mem_of_attempt retained).1 same.symm
    · exact differs same
  · intro free
    refine (validate_with_attempts valid _).mpr ⟨⟨?_, ?_, ?_⟩, ?_⟩
    · intro record member
      rcases mem_updateFirst retained member with rfl | member
      · exact wellFormed
      · exact passes record member
    · rw [map_updateFirst retained (mem_of_attempt retained).2.symm]
      exact bySubmission
    · exact nodup_map_updateFirst retained byAttempt unused
    · intro receipt member
      refine receipts_backed (backed receipt member) fun record isRecord named => ?_
      refine ⟨record, mem_updateFirst_of_ne retained isRecord ?_, rfl, Nat.le_refl _⟩
      rintro rfl
      exact free ⟨receipt, member, named⟩

/-- The submission retains an attempt that a human has decided about. -/
def RetainsResolved (c : ConversationInputCheckpoint) (submission : InputSubmissionId) : Prop :=
  ∃ prior, c.attempt submission = some prior ∧ c.isHumanResolved prior.attempt = true

theorem validate_recordAttemptFact (valid : c.validate = .ok ()) (report : InputAttemptFact) :
    (c.recordAttemptFact report).2.validate = .ok () := by
  have outcome := recordAttemptFact_outcome c report
  generalize c.recordAttemptFact report = result at outcome
  cases outcome with
  | refused | covered => exact valid
  | settled _ _ wellFormed retained same =>
    exact validate_settled valid wellFormed retained same

theorem validate_beginAttempt (valid : c.validate = .ok ()) (attempt : InputAttempt)
    (correlation : InputCorrelationFact) (invocation : FrozenInputInvocation)
    (accepted : (c.beginAttempt attempt correlation invocation).1 = .ok ()) :
    (c.beginAttempt attempt correlation invocation).2.validate = .ok () ↔
      ¬c.RetainsResolved attempt.submissionId := by
  have outcome := beginAttempt_outcome c attempt correlation invocation
  generalize c.beginAttempt attempt correlation invocation = result at outcome accepted
  cases outcome with
  | refused => cases accepted
  | appended _ _ _ wellFormed unused first =>
    refine iff_of_true (validate_appended valid wellFormed unused first) ?_
    rintro ⟨prior, retained, -⟩
    cases first.symm.trans retained
  | replaced _ _ _ prior wellFormed unused retained =>
    refine (validate_replaced valid wellFormed unused retained).trans ?_
    rw [← Bool.not_eq_true, not_iff_not]
    constructor
    · intro resolved
      exact ⟨prior, retained, resolved⟩
    · rintro ⟨_, isOther, resolved⟩
      cases retained.symm.trans isOther
      exact resolved

end ConversationInputCheckpoint

/-! ## Identities over whole sequences of calls -/

/-- The attempts whose records are retained. -/
def ConversationInputCheckpoint.retained (c : ConversationInputCheckpoint) : List InputAttempt :=
  c.attempts.map (·.attempt)

/-- What is retained after a call was retained before it or is begun by it. -/
theorem retained_step (call : Call) : (call.apply c).2.retained ⊆ c.retained ++ call.begins c := by
  have outcome := call.outcome c
  cases call with
  | beginAttempt attempt correlation invocation =>
    simp only [Call.begins, Call.apply] at outcome ⊢
    generalize c.beginAttempt attempt correlation invocation = result at outcome ⊢
    cases outcome with
    | refused => exact subset_append_left _ _
    | appended =>
      rw [ConversationInputCheckpoint.retained, map_append]
      exact List.Subset.refl _
    | replaced _ _ _ _ _ _ retained =>
      intro other member
      obtain ⟨_, isRecord, rfl⟩ := mem_map.mp member
      rcases mem_updateFirst retained isRecord with rfl | isRecord
      · exact mem_append_right _ mem_cons_self
      · exact mem_append_left _ (mem_map_of_mem isRecord)
  | recordAttemptFact report =>
    simp only [Call.begins, Call.apply, append_nil] at outcome ⊢
    generalize c.recordAttemptFact report = result at outcome ⊢
    cases outcome with
    | refused | covered => exact List.Subset.refl _
    | settled _ prior _ retained same =>
      have kept : (c.updateAttempt report.attempt.submissionId
          (report.settle (prior.revision + 1))).retained = c.retained :=
        map_updateFirst retained same.symm
      rw [kept]
      exact List.Subset.refl _

variable {c : ConversationInputCheckpoint}

/-- A crossing is begun under an identity that is not retained, and is then retained. -/
theorem begins_step {call : Call} (begun : attempt ∈ call.begins c) :
    call.begins c = [attempt] ∧ attempt ∈ (call.apply c).2.retained ∧
      attempt.attemptId ∉ c.retained.map (·.attemptId) := by
  have outcome := call.outcome c
  cases call with
  | recordAttemptFact => cases begun
  | beginAttempt started correlation invocation =>
    simp only [Call.begins, Call.apply] at outcome begun ⊢
    generalize c.beginAttempt started correlation invocation = result at outcome begun ⊢
    have absent (unused : ∀ record ∈ c.attempts, record.attempt.attemptId ≠ started.attemptId) :
        started.attemptId ∉ c.retained.map (·.attemptId) := by
      simpa [ConversationInputCheckpoint.retained] using unused
    cases outcome with
    | refused => cases begun
    | appended _ _ _ _ unused =>
      obtain rfl := mem_singleton.mp begun
      refine ⟨rfl, ?_, absent unused⟩
      simp [ConversationInputCheckpoint.retained, crossingMarker]
    | replaced _ _ _ _ _ unused retained =>
      obtain rfl := mem_singleton.mp begun
      refine ⟨rfl, ?_, absent unused⟩
      exact mem_map.mpr ⟨_, updated_mem_updateFirst retained, rfl⟩

/-- The checkpoint after a sequence of calls, from the empty one. -/
def checkpointAfter (calls : List Call) : ConversationInputCheckpoint :=
  run step ConversationInputCheckpoint.empty calls

/-- The crossings that a sequence of calls begins, from the empty checkpoint. -/
def crossings (calls : List Call) : List InputAttempt :=
  outputs step ConversationInputCheckpoint.empty calls

def retainedIds (calls : List Call) : List InputAttemptId :=
  (checkpointAfter calls).retained.map (·.attemptId)

def crossedIds (calls : List Call) : List InputAttemptId := (crossings calls).map (·.attemptId)

/-- The identity was retained at some point of the sequence and is not at its end. -/
def Forgotten (calls : List Call) (attemptId : InputAttemptId) : Prop :=
  (∃ earlier, earlier <+: calls ∧ attemptId ∈ retainedIds earlier) ∧ attemptId ∉ retainedIds calls

/-- No call of the sequence names a forgotten identity for a new attempt. -/
def Remembers (calls : List Call) : Prop :=
  ∀ earlier attempt correlation invocation,
    earlier ++ [.beginAttempt attempt correlation invocation] <+: calls →
      ¬Forgotten earlier attempt.attemptId

theorem checkpointAfter_snoc :
    checkpointAfter (calls ++ [call]) = (call.apply (checkpointAfter calls)).2 :=
  run_append step _ calls [call]

theorem crossings_append : crossings (calls ++ later) =
    crossings calls ++ outputs step (checkpointAfter calls) later :=
  outputs_append step _ calls later

theorem crossings_snoc :
    crossings (calls ++ [call]) = crossings calls ++ call.begins (checkpointAfter calls) := by
  rw [crossings_append]
  exact congrArg _ (append_nil _)

/-- Whatever is retained was begun. -/
theorem retained_subset_crossings (calls : List Call) :
    (checkpointAfter calls).retained ⊆ crossings calls := by
  induction calls using reverseRecOn with
  | nil => exact nil_subset _
  | append_singleton _ call ih =>
    rw [checkpointAfter_snoc, crossings_snoc]
    intro attempt member
    rcases mem_append.mp (retained_step call member) with kept | begun
    · exact mem_append_left _ (ih kept)
    · exact mem_append_right _ begun

/-- Whatever was begun has been retained. -/
theorem retained_of_crossed {attemptId : InputAttemptId} (crossed : attemptId ∈ crossedIds calls) :
    ∃ earlier, earlier <+: calls ∧ attemptId ∈ retainedIds earlier := by
  obtain ⟨_, begun, rfl⟩ := mem_map.mp crossed
  obtain ⟨earlier, call, later, split, here⟩ := exists_of_mem_outputs step begun
  refine ⟨earlier ++ [call], ⟨later, by rw [split, append_assoc]; rfl⟩, ?_⟩
  rw [retainedIds, checkpointAfter_snoc]
  exact mem_map_of_mem (begins_step here).2.1

theorem crossed_of_retained (before : earlier <+: calls)
    (member : attemptId ∈ retainedIds earlier) :
    attemptId ∈ crossedIds calls := by
  obtain ⟨_, rfl⟩ := before
  rw [crossedIds, crossings_append, map_append]
  exact mem_append_left _ (map_subset _ (retained_subset_crossings earlier) member)

/-- An identity that can be begun has been begun before exactly when it is forgotten. -/
theorem crossed_iff_forgotten {call : Call}
    (begun : attempt ∈ call.begins (checkpointAfter calls)) :
    attempt.attemptId ∈ crossedIds calls ↔ Forgotten calls attempt.attemptId := by
  constructor
  · intro crossed
    exact ⟨retained_of_crossed crossed, (begins_step begun).2.2⟩
  · rintro ⟨⟨_, before, member⟩, -⟩
    exact crossed_of_retained before member

theorem begins_eq {call : Call} (begun : attempt ∈ call.begins c) :
    ∃ correlation invocation, call = .beginAttempt attempt correlation invocation := by
  cases call with
  | recordAttemptFact => cases begun
  | beginAttempt _ correlation invocation =>
    rw [Call.begins] at begun
    split at begun
    · obtain rfl := mem_singleton.mp begun
      exact ⟨correlation, invocation, rfl⟩
    · cases begun

theorem Remembers.of_isPrefix (remembers : Remembers calls) (before : earlier <+: calls) :
    Remembers earlier :=
  fun first attempt correlation invocation isPart =>
    remembers first attempt correlation invocation (isPart.trans before)

theorem crossedIds_nodup (remembers : Remembers calls) : (crossedIds calls).Nodup := by
  induction calls using reverseRecOn with
  | nil => exact nodup_nil
  | append_singleton calls call ih =>
    have distinct := ih (remembers.of_isPrefix (prefix_append _ _))
    rw [crossedIds, crossings_snoc]
    rcases begins : call.begins (checkpointAfter calls) with _ | ⟨attempt, _⟩
    · rw [append_nil]
      exact distinct
    have begun : attempt ∈ call.begins (checkpointAfter calls) := begins ▸ mem_cons_self
    rw [← begins, (begins_step begun).1, map_append, map_singleton, nodup_append]
    refine ⟨distinct, nodup_singleton _, ?_⟩
    intro id crossed other isAttempt same
    rw [mem_singleton.mp isAttempt] at same
    obtain ⟨correlation, invocation, rfl⟩ := begins_eq begun
    exact remembers calls attempt correlation invocation (prefix_refl _)
      ((crossed_iff_forgotten begun).mp (same ▸ crossed))

/-- A report that changes the checkpoint names a retained attempt. -/
theorem retained_of_settles (settles : (c.recordAttemptFact report).2 ≠ c) :
    report.attempt ∈ c.retained := by
  have outcome := recordAttemptFact_outcome c report
  generalize c.recordAttemptFact report = result at outcome settles
  cases outcome with
  | refused | covered => exact absurd rfl settles
  | settled _ prior _ retained same =>
    exact mem_map.mpr ⟨prior, (ConversationInputCheckpoint.mem_of_attempt retained).1, same⟩

/-- **Consistency.**  A report keeps a valid checkpoint valid; a new attempt does exactly when the
submission retains no attempt that a human has decided about.  From the empty checkpoint, a crossing
has an identity begun before exactly when that identity is forgotten: when no call names a forgotten
identity, each identity is begun at most once, and a report settles the one crossing that was begun
under its identity. -/
theorem checkpoint_consistent_iff (c : ConversationInputCheckpoint) (calls : List Call) :
    (c.validate = .ok () →
      (∀ report, (c.recordAttemptFact report).1 = .ok () →
        (c.recordAttemptFact report).2.validate = .ok ()) ∧
      (∀ attempt correlation invocation,
        (c.beginAttempt attempt correlation invocation).1 = .ok () →
          ((c.beginAttempt attempt correlation invocation).2.validate = .ok () ↔
            ¬c.RetainsResolved attempt.submissionId))) ∧
    (∀ attempt correlation invocation,
      ((checkpointAfter calls).beginAttempt attempt correlation invocation).1 = .ok () →
        (attempt.attemptId ∉ crossedIds calls ↔ ¬Forgotten calls attempt.attemptId)) ∧
    (Remembers calls → (crossedIds calls).Nodup ∧
      ∀ report, ((checkpointAfter calls).recordAttemptFact report).2 ≠ checkpointAfter calls →
        report.attempt ∈ crossings calls ∧
        ∀ crossing ∈ crossings calls, crossing.attemptId = report.attempt.attemptId →
          crossing = report.attempt) := by
  refine ⟨?_, ?_, ?_⟩
  · intro valid
    exact ⟨fun report _ => c.validate_recordAttemptFact valid report,
      fun attempt correlation invocation => c.validate_beginAttempt valid attempt correlation
        invocation⟩
  · intro attempt correlation invocation accepted
    have begun : attempt ∈
        (Call.beginAttempt attempt correlation invocation).begins (checkpointAfter calls) := by
      simp [Call.begins, accepted]
    exact not_congr (crossed_iff_forgotten begun)
  · intro remembers
    have distinct := crossedIds_nodup remembers
    refine ⟨distinct, fun report settles => ?_⟩
    have begun := retained_subset_crossings calls (retained_of_settles settles)
    exact ⟨begun, fun crossing member same => inj_on_of_nodup_map distinct member begun same⟩

/-! ## How it fails -/

namespace Refused

def submission : InputSubmissionId := ⟨replicate 32 '5', by decide⟩

def first : InputAttempt := ⟨submission, ⟨replicate 32 '1', by decide⟩⟩

def second : InputAttempt := ⟨submission, ⟨replicate 32 '2', by decide⟩⟩

def correlation : InputCorrelationFact where
  provider := .codex
  threadId := ['t']
  nativeSessionId := none
  localTurnId := none
  nativeTurnId := none
  rpcRequestId := none

def invocation : FrozenInputInvocation where
  model := none
  effort := none
  permission := .never

/-- The adapter reports that nothing was sent. -/
def notSent (attempt : InputAttempt) : InputAttemptFact where
  attempt := attempt
  correlation := correlation
  delivery := .notDispatched ['r']

/-- A human kept the held input at revision 0; the refusal was reported after that. -/
def kept : ConversationInputCheckpoint where
  nextQueuePosition := 0
  pending := []
  active := none
  attempts := [(notSent first).settle 2 (crossingMarker first correlation invocation)]
  receipts := [{
    key := ['k']
    principal := ['p']
    fingerprint := replicate 64 'f'
    decision := .keep
      { carrierId := ['c'], submissionId := first.submissionId.value
        attemptId := first.attemptId.value, revision := ['0'] }
      { carrierId := ['c'], submissionId := first.submissionId.value
        attemptId := first.attemptId.value, revision := ['1'], waitingForSettlement := false } }]

/-- The first identity is begun, refused, overwritten by the second, and begun again. -/
def reused : List Call :=
  [.beginAttempt first correlation invocation, .recordAttemptFact (notSent first),
    .beginAttempt second correlation invocation, .recordAttemptFact (notSent second),
    .beginAttempt first correlation invocation]

end Refused

/-- A new attempt over a refused one that a human has kept leaves a receipt without its attempt,
and an overwritten identity can be begun a second time. -/
theorem checkpoint_inconsistent :
    ¬(∀ c : ConversationInputCheckpoint, c.validate = .ok () →
      ∀ attempt correlation invocation,
        (c.beginAttempt attempt correlation invocation).1 = .ok () →
          (c.beginAttempt attempt correlation invocation).2.validate = .ok ()) ∧
    ¬∀ calls, (crossedIds calls).Nodup := by
  constructor
  · intro consistent
    have done := consistent Refused.kept (by decide +kernel) Refused.second Refused.correlation
      Refused.invocation (by decide +kernel)
    exact absurd done (by decide +kernel)
  · intro distinct
    exact absurd (distinct Refused.reused) (by decide +kernel)

end NeigeCalm.Conversation
