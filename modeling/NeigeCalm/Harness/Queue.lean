import NeigeCalm.Library.Lines
import Mathlib.Data.UInt

/-!
# The pending queue of a harness

Inputs wait in a queue until a turn takes them.  A human may edit, delete or steer a user entry
by its id and the revision last read; under backpressure an incoming message is folded into the
tail, or an observation that does not have to fire is dropped for it.
-/

namespace NeigeCalm.Harness

open Library List Option

/-! ## Entries -/

inductive EditAuthor where
  | planner
  | user
  | assistant
  | kernel
  | plugin
deriving DecidableEq

inductive ReportEditPresentation where
  | legacy
  | knowledge (knowledgeText : Text)
deriving DecidableEq

structure ReportEdit where
  presentation : ReportEditPresentation
  trackId : Text
  bodySha256 : Text
  body : Text
  author : Option EditAuthor
  bodyBefore : Option Text
  docRevAfter : Option Nat
  blocksAfter : Option (List (Text × Nat))
deriving DecidableEq

/-- An observation.  `event` stands for those that always fire (task, gate, delivery, wake, forge
and worktree reports), `lease` for the two that report a workspace lease and its release. -/
inductive Observation where
  | trackGoal (text : Text)
  | reportEdited (edit : ReportEdit)
  | userMessage (text : Text)
  | event (tag : Text)
  | lease (tag : Text)
deriving DecidableEq

def Observation.isHardFire : Observation → Bool
  | .userMessage _ | .event _ => true
  | .trackGoal _ | .reportEdited _ | .lease _ => false

/-- An image bound to a message. -/
structure BoundAttachment where
  id : Text
deriving DecidableEq

structure UserEntry where
  id : Text
  text : Text
  /-- The token of compare-and-swap. -/
  rev : UInt32
  queuedAtMs : Int
  envelopeId : Option Int
  messageIds : List Text
  attachments : List BoundAttachment
deriving DecidableEq

inductive QueueEntry where
  | user (entry : UserEntry)
  | legacyUser (text : Text) (envelopeId : Option Int) (messageIds : List Text)
  | system (observation : Observation) (envelopeId : Option Int) (messageIds : List Text)
deriving DecidableEq

/-- `u32::MAX`. -/
def revMax : UInt32 := 4294967295

namespace QueueEntry

def id : QueueEntry → Option Text
  | .user entry => some entry.id
  | .legacyUser .. | .system .. => none

def envelopeId : QueueEntry → Option Int
  | .user entry => entry.envelopeId
  | .legacyUser _ envelopeId _ | .system _ envelopeId _ => envelopeId

def messageIds : QueueEntry → List Text
  | .user entry => entry.messageIds
  | .legacyUser _ _ messageIds | .system _ _ messageIds => messageIds

/-- The entry with another envelope and more messages. -/
def absorb (entry : QueueEntry) (envelope : Option Int) (messages : List Text) : QueueEntry :=
  match entry with
  | .user held =>
    .user { held with envelopeId := envelope, messageIds := held.messageIds ++ messages }
  | .legacyUser text _ held => .legacyUser text envelope (held ++ messages)
  | .system observation _ held => .system observation envelope (held ++ messages)

def isUserAuthored : QueueEntry → Bool
  | .user _ | .legacyUser .. => true
  | .system .. => false

def isHardFire : QueueEntry → Bool
  | .user _ | .legacyUser .. => (Observation.userMessage []).isHardFire
  | .system observation _ _ => observation.isHardFire

/-- One revision up when there is room; whether there was. -/
def bumpRevForRestore : QueueEntry → Bool × QueueEntry
  | .user entry =>
    if entry.rev = revMax then (false, .user entry)
    else (true, .user { entry with rev := entry.rev + 1 })
  | other => (false, other)

def isReportEdit : QueueEntry → Bool
  | .system (.reportEdited _) _ _ => true
  | _ => false

end QueueEntry

/-! ## Mutations -/

inductive QueueMutation where
  | edit (entryId : Text) (text : Text) (ifEntryRev : UInt32)
  | delete (entryId : Text) (ifEntryRev : UInt32)
  | steer (entryId : Text) (ifEntryRev : UInt32)
deriving DecidableEq

def QueueMutation.entryId : QueueMutation → Text
  | .edit entryId _ _ | .delete entryId _ | .steer entryId _ => entryId

def QueueMutation.ifEntryRev : QueueMutation → UInt32
  | .edit _ _ ifEntryRev | .delete _ ifEntryRev | .steer _ ifEntryRev => ifEntryRev

/-- Whether a later rewrite or restore of the entry needs another revision. -/
def QueueMutation.needsRevision : QueueMutation → Bool
  | .edit .. | .steer .. => true
  | .delete .. => false

inductive QueueChange where
  | edited
  | deleted
  | steered
deriving DecidableEq

structure MutationApplied where
  entryId : Text
  change : QueueChange
  rev : UInt32
  text : Option Text
  removed : Option UserEntry
  queueNowEmpty : Bool
  remainingHardFire : Bool
deriving DecidableEq

inductive MutationRefused where
  | notFound
  | stale (entryId : Text) (text : Text) (rev : UInt32)
  | ambiguousId (entryId : Text) (count : Nat)
  | revisionExhausted (entryId : Text)
deriving DecidableEq

/-- The user entries with an id, each with its index. -/
def matching (queue : List QueueEntry) (entryId : Text) : List (UserEntry × Nat) :=
  queue.zipIdx.filterMap fun (entry, index) =>
    match entry with
    | .user held => if held.id = entryId then some (held, index) else none
    | _ => none

def locateEntry (queue : List QueueEntry) (entryId : Text) (ifEntryRev : UInt32) :
    Except MutationRefused (UserEntry × Nat) :=
  match matching queue entryId with
  | [] => .error .notFound
  | [(held, index)] =>
    if held.rev ≠ ifEntryRev then .error (.stale entryId held.text held.rev)
    else .ok (held, index)
  | many => .error (.ambiguousId entryId many.length)

def applied (mutation : QueueMutation) (queue : List QueueEntry) (change : QueueChange)
    (rev : UInt32) (text : Option Text) (removed : Option UserEntry) : MutationApplied :=
  { entryId := mutation.entryId
    change
    rev
    text
    removed
    queueNowEmpty := queue.isEmpty
    remainingHardFire := queue.any QueueEntry.isHardFire }

/-- The answer and the queue afterwards. -/
def applyMutation (queue : List QueueEntry) (mutation : QueueMutation) :
    Except MutationRefused MutationApplied × List QueueEntry :=
  match locateEntry queue mutation.entryId mutation.ifEntryRev with
  | .error refused => (.error refused, queue)
  | .ok (held, index) =>
    if mutation.needsRevision ∧ held.rev = revMax then
      (.error (.revisionExhausted mutation.entryId), queue)
    else match mutation with
      | .edit _ text _ =>
        let after := queue.set index (.user { held with text, rev := held.rev + 1 })
        (.ok (applied mutation after .edited (held.rev + 1) (some text) none), after)
      | .delete _ _ =>
        let after := queue.eraseIdx index
        (.ok (applied mutation after .deleted held.rev none none), after)
      | .steer _ _ =>
        let after := queue.eraseIdx index
        (.ok (applied mutation after .steered held.rev none (some held)), after)

/-! ## Folding -/

def maxPendingQueueLen : Nat := 256

def maxFoldedUserMessageChars : Nat := 4 * 32768

def maxAttachmentsPerMessage : Nat := 8

def foldUserText (text new : Text) (maxFoldedUserChars : Nat) : Option Text :=
  if maxFoldedUserChars < text.length + new.length + 2 then none
  else some (text ++ "\n\n".toList ++ new)

/-- What a report edit becomes when another follows it. -/
def foldReportEdit (held new : ReportEdit) : Option ReportEdit :=
  if held.trackId = new.trackId ∧ new.presentation ≠ .legacy then some new
  else if held.presentation = .legacy ∧ new.presentation = .legacy ∧
      held.trackId = new.trackId ∧ new.bodyBefore = some held.body then
    some { held with
      bodySha256 := new.bodySha256
      body := new.body
      author := new.author
      docRevAfter := new.docRevAfter
      blocksAfter := new.blocksAfter }
  else none

/-- The tail after an incoming entry is merged into it. -/
def foldInto (last incoming : QueueEntry) (maxFoldedUserChars : Nat) : Option QueueEntry :=
  match last, incoming with
  | .user held, .user new =>
    let merged := new.attachments.filter fun attachment =>
      !held.attachments.any fun other => other.id == attachment.id
    if held.rev = revMax ∨ maxAttachmentsPerMessage < held.attachments.length + merged.length then
      none
    else (foldUserText held.text new.text maxFoldedUserChars).map fun text =>
      .user { held with text, attachments := held.attachments ++ merged, rev := held.rev + 1 }
  | .legacyUser text envelopeId messageIds, .user new =>
    if new.attachments = [] then
      (foldUserText text new.text maxFoldedUserChars).map fun text =>
        .legacyUser text envelopeId messageIds
    else none
  | .system (.trackGoal _) envelopeId messageIds, .system (.trackGoal new) _ _ =>
    some (.system (.trackGoal new) envelopeId messageIds)
  | .system (.reportEdited held) envelopeId messageIds, .system (.reportEdited new) _ _ =>
    (foldReportEdit held new).map fun edit => .system (.reportEdited edit) envelopeId messageIds
  | _, _ => none

inductive FoldOutcome where
  | notFolded
  | folded (entryId : Option Text)
deriving DecidableEq

def tryFoldTail (queue : List QueueEntry) (incoming : QueueEntry) (maxFoldedUserChars : Nat) :
    FoldOutcome × List QueueEntry :=
  match queue.getLast? with
  | none => (.notFolded, queue)
  | some last =>
    match foldInto last incoming maxFoldedUserChars with
    | none => (.notFolded, queue)
    | some merged =>
      let survivor := merged.absorb incoming.envelopeId incoming.messageIds
      (.folded survivor.id, queue.dropLast ++ [survivor])

def tryFoldReportEditTail (queue : List QueueEntry) (incoming : QueueEntry) :
    FoldOutcome × List QueueEntry :=
  if incoming.isReportEdit && queue.getLast?.any QueueEntry.isReportEdit then
    tryFoldTail queue incoming 0
  else (.notFolded, queue)

inductive EnqueueOutcome where
  | accepted (entryId : Option Text)
  | rejected
deriving DecidableEq

/-- `enqueue_pending_observation`. -/
def enqueuePendingObservation (queue : List QueueEntry) (entry : QueueEntry) :
    EnqueueOutcome × List QueueEntry :=
  match tryFoldReportEditTail queue entry with
  | (.folded entryId, after) => (.accepted entryId, after)
  | (.notFolded, _) =>
    if maxPendingQueueLen ≤ queue.length then
      match tryFoldTail queue entry maxFoldedUserMessageChars with
      | (.folded entryId, after) => (.accepted entryId, after)
      | (.notFolded, _) =>
        match queue.findIdx? fun queued => !queued.isHardFire with
        | some dropIdx => (.accepted entry.id, queue.eraseIdx dropIdx ++ [entry])
        | none => (.rejected, queue)
    else (.accepted entry.id, queue ++ [entry])

/-- A drained or refused batch goes back to the front. -/
def rebufferHead (queue drained : List QueueEntry) : List QueueEntry := drained ++ queue

/-! ## What the operations do -/

/-- How a user entry may change where it stands: not at all, or its revision goes up by one. -/
structure UserEntry.Advances (before after : UserEntry) : Prop where
  id : after.id = before.id
  version : after.rev = before.rev ∧ after.text = before.text ∨
    after.rev.toNat = before.rev.toNat + 1

/-- How an entry may change where it stands. -/
inductive QueueEntry.Advances : QueueEntry → QueueEntry → Prop
  | user {before after : UserEntry} : before.Advances after →
      QueueEntry.Advances (.user before) (.user after)
  | legacyUser {text text' : Text} {envelopeId envelopeId' : Option Int}
      {messageIds messageIds' : List Text} : text <+: text' → messageIds <+: messageIds' →
      QueueEntry.Advances (.legacyUser text envelopeId messageIds)
        (.legacyUser text' envelopeId' messageIds')
  | system {before after : Observation} {envelopeId envelopeId' : Option Int}
      {messageIds messageIds' : List Text} :
      QueueEntry.Advances (.system before envelopeId messageIds)
        (.system after envelopeId' messageIds')

theorem UserEntry.Advances.refl (entry : UserEntry) : entry.Advances entry := ⟨rfl, .inl ⟨rfl, rfl⟩⟩

theorem QueueEntry.Advances.refl (entry : QueueEntry) : entry.Advances entry := by
  cases entry with
  | user entry => exact .user (UserEntry.Advances.refl entry)
  | legacyUser =>
    exact .legacyUser (prefix_refl _) (prefix_refl _)
  | system => exact .system

theorem QueueEntry.Advances.id_eq {before after : QueueEntry} (advances : before.Advances after) :
    after.id = before.id := by
  cases advances with
  | user same => exact congrArg some same.id
  | legacyUser | system => rfl

theorem rev_succ (room : rev ≠ revMax) : (rev + 1).toNat = rev.toNat + 1 := by
  have bound := rev.toNat_lt
  have below : rev.toNat ≠ 4294967295 := by
    intro full
    exact room (UInt32.toNat_inj.mp full)
  rw [UInt32.toNat_add]
  have one : (1 : UInt32).toNat = 1 := rfl
  omega

theorem UserEntry.Advances.of_rev {before after : UserEntry} (id : after.id = before.id)
    (room : before.rev ≠ revMax) (rev : after.rev = before.rev + 1) : before.Advances after :=
  ⟨id, .inr (by rw [rev, rev_succ room])⟩

/-- The attachments of `new` that `held` does not name yet. -/
def unheld (held new : List BoundAttachment) : List BoundAttachment :=
  new.filter fun attachment => !held.any fun other => other.id == attachment.id

/-- What a fold makes of the tail and the incoming entry. -/
inductive Folded : QueueEntry → QueueEntry → QueueEntry → Prop
  | user : held.rev ≠ revMax →
      held.attachments.length + (unheld held.attachments new.attachments).length ≤
        maxAttachmentsPerMessage →
      Folded (.user held) (.user new) (.user { held with
        text := held.text ++ "\n\n".toList ++ new.text
        attachments := held.attachments ++ unheld held.attachments new.attachments
        rev := held.rev + 1
        envelopeId := new.envelopeId
        messageIds := held.messageIds ++ new.messageIds })
  | legacyUser :
      new.attachments = [] →
      Folded (.legacyUser text envelopeId messageIds) (.user new)
        (.legacyUser (text ++ "\n\n".toList ++ new.text) new.envelopeId
          (messageIds ++ new.messageIds))
  | trackGoal :
      Folded (.system (.trackGoal old) envelopeId messageIds)
        (.system (.trackGoal new) envelopeId' messageIds')
        (.system (.trackGoal new) envelopeId' (messageIds ++ messageIds'))
  | reportEdited : foldReportEdit held new = some edit →
      Folded (.system (.reportEdited held) envelopeId messageIds)
        (.system (.reportEdited new) envelopeId' messageIds')
        (.system (.reportEdited edit) envelopeId' (messageIds ++ messageIds'))

theorem foldUserText_eq (folded : foldUserText text new maxFoldedUserChars = some joined) :
    joined = text ++ "\n\n".toList ++ new := by
  rw [foldUserText] at folded
  split at folded
  next => cases folded
  next => exact (some.inj folded).symm

theorem foldInto_folded (folded : foldInto last incoming maxFoldedUserChars = some merged) :
    Folded last incoming (merged.absorb incoming.envelopeId incoming.messageIds) := by
  unfold foldInto at folded
  split at folded
  next held new =>
    dsimp only at folded
    split at folded
    next => cases folded
    next room =>
      rw [not_or, Nat.not_lt] at room
      obtain ⟨_, fits, rfl⟩ := map_eq_some_iff.mp folded
      rw [foldUserText_eq fits]
      exact .user room.1 room.2
  next =>
    split at folded
    next none =>
      obtain ⟨_, fits, rfl⟩ := map_eq_some_iff.mp folded
      rw [foldUserText_eq fits]
      exact .legacyUser none
    next => cases folded
  next =>
    cases folded
    exact .trackGoal
  next =>
    obtain ⟨_, follows, rfl⟩ := map_eq_some_iff.mp folded
    exact .reportEdited follows
  next => cases folded

/-- **A fold advances the tail**, and a folded message ends the tail's text. -/
theorem Folded.advances {last incoming survivor : QueueEntry}
    (folded : Folded last incoming survivor) : last.Advances survivor := by
  cases folded with
  | user room => exact .user (.of_rev rfl room rfl)
  | legacyUser =>
    refine .legacyUser ?_ (prefix_append _ _)
    rw [append_assoc]
    exact prefix_append _ _
  | trackGoal | reportEdited => exact .system

/-- The text of a user-authored entry. -/
def QueueEntry.userText : QueueEntry → Option Text
  | .user entry => some entry.text
  | .legacyUser text _ _ => some text
  | .system .. => none

theorem Folded.suffix (folded : Folded last (.user new) survivor) :
    ∃ text, survivor.userText = some text ∧ new.text <:+ text := by
  cases folded with
  | user | legacyUser => exact ⟨_, rfl, suffix_append _ _⟩

theorem tryFoldTail_folded {queue after : List QueueEntry}
    (result : tryFoldTail queue incoming maxFoldedUserChars = (.folded entryId, after)) :
    ∃ front last merged, queue = front ++ [last] ∧
      foldInto last incoming maxFoldedUserChars = some merged ∧
      after = front ++ [merged.absorb incoming.envelopeId incoming.messageIds] := by
  rw [tryFoldTail] at result
  split at result
  next => cases (Prod.mk.inj result).1
  next last tail =>
    split at result
    next => cases (Prod.mk.inj result).1
    next merged folded =>
      refine ⟨queue.dropLast, last, merged, ?_, folded, (Prod.mk.inj result).2.symm⟩
      exact (dropLast_append_getLast? last tail).symm

/-- An entry that need not fire was not written by a user. -/
theorem QueueEntry.system_of_soft (entry : QueueEntry) (soft : entry.isHardFire = false) :
    entry.isUserAuthored = false := by
  cases entry with
  | user | legacyUser => cases soft
  | system => rfl

/-- What an enqueue does to the queue. -/
inductive Enqueued (queue : List QueueEntry) (entry : QueueEntry) :
    EnqueueOutcome → List QueueEntry → Prop
  | folded : queue = front ++ [last] →
      foldInto last entry maxFoldedUserChars = some merged →
      Enqueued queue entry (.accepted entryId)
        (front ++ [merged.absorb entry.envelopeId entry.messageIds])
  | pushed : Enqueued queue entry (.accepted entry.id) (queue ++ [entry])
  | evicted :
      queue = front ++ dropped :: rest → dropped.isHardFire = false →
      Enqueued queue entry (.accepted entry.id) (front ++ rest ++ [entry])
  | rejected : Enqueued queue entry .rejected queue

theorem enqueuePendingObservation_enqueued (queue : List QueueEntry) (entry : QueueEntry) :
    Enqueued queue entry (enqueuePendingObservation queue entry).1
      (enqueuePendingObservation queue entry).2 := by
  have fold : ∀ {maxFoldedUserChars : Nat} {entryId : Option Text} {after : List QueueEntry},
      tryFoldTail queue entry maxFoldedUserChars = (.folded entryId, after) →
      Enqueued queue entry (.accepted entryId) after := by
    intro maxFoldedUserChars entryId after result
    obtain ⟨_, _, _, isQueue, folded, rfl⟩ := tryFoldTail_folded result
    exact .folded isQueue folded
  rw [enqueuePendingObservation]
  split
  next result =>
    rw [tryFoldReportEditTail] at result
    split at result
    next => exact fold result
    next => cases (Prod.mk.inj result).1
  next =>
    split
    next =>
      split
      next result => exact fold result
      next =>
        split
        next dropIdx found =>
          obtain ⟨_, soft, -⟩ := findIdx?_eq_some_iff_getElem.mp found
          rw [eraseIdx_eq_take_drop_succ]
          have isQueue : queue =
              queue.take dropIdx ++ queue[dropIdx] :: queue.drop (dropIdx + 1) := by
            rw [getElem_cons_drop, take_append_drop]
          exact .evicted isQueue (by simpa using soft)
        next => exact .rejected
    next => exact .pushed

/-! ## What a mutation does -/

theorem mem_matching (among : (held, index) ∈ matching queue entryId) :
    queue[index]? = some (.user held) ∧ held.id = entryId := by
  obtain ⟨⟨entry, _⟩, there, matched⟩ := mem_filterMap.mp among
  rw [mem_zipIdx_iff_getElem?] at there
  cases entry with
  | user =>
    dsimp only at matched
    split at matched
    next same =>
      cases matched
      exact ⟨there, same⟩
    next => cases matched
  | legacyUser | system => cases matched

theorem locateEntry_ok (found : locateEntry queue entryId ifEntryRev = .ok (held, index)) :
    queue[index]? = some (.user held) ∧ held.id = entryId ∧ held.rev = ifEntryRev := by
  rw [locateEntry] at found
  split at found
  next => cases found
  next only =>
    split at found
    next => cases found
    next same =>
      cases found
      obtain ⟨there, isId⟩ := mem_matching (only ▸ mem_singleton_self _)
      exact ⟨there, isId, not_not.mp same⟩
  next => cases found

/-- What a mutation does: refused, it changes nothing; applied, it acts on the one entry with
that id, at that revision. -/
inductive Mutated (queue : List QueueEntry) (mutation : QueueMutation) :
    Except MutationRefused MutationApplied → List QueueEntry → Prop
  | refused (refused : MutationRefused) : Mutated queue mutation (.error refused) queue
  | edited :
      mutation = .edit held.id text held.rev → queue = front ++ .user held :: rest →
      held.rev ≠ revMax → report.removed = none →
      Mutated queue mutation (.ok report)
        (front ++ .user { held with text, rev := held.rev + 1 } :: rest)
  | deleted :
      mutation = .delete held.id held.rev → queue = front ++ .user held :: rest →
      report.removed = none → Mutated queue mutation (.ok report) (front ++ rest)
  | steered :
      mutation = .steer held.id held.rev → queue = front ++ .user held :: rest →
      held.rev ≠ revMax → report.removed = some held →
      Mutated queue mutation (.ok report) (front ++ rest)

theorem applyMutation_mutated (queue : List QueueEntry) (mutation : QueueMutation) :
    Mutated queue mutation (applyMutation queue mutation).1 (applyMutation queue mutation).2 := by
  rw [applyMutation]
  split
  next refused _ => exact .refused refused
  next held index found =>
    obtain ⟨there, isId, isRev⟩ := locateEntry_ok found
    obtain ⟨bound, isEntry⟩ := List.getElem?_eq_some_iff.mp there
    have split_ : queue = queue.take index ++ .user held :: queue.drop (index + 1) := by
      rw [← isEntry, getElem_cons_drop, take_append_drop]
    split
    next => exact .refused _
    next room =>
      cases mutation with
      | edit =>
        cases isId
        cases isRev
        dsimp only
        rw [set_eq_take_append_cons_drop, if_pos bound]
        exact .edited rfl split_ (fun full => room ⟨rfl, full⟩) rfl
      | delete =>
        cases isId
        cases isRev
        dsimp only
        rw [eraseIdx_eq_take_drop_succ]
        exact .deleted rfl split_ rfl
      | steer =>
        cases isId
        cases isRev
        dsimp only
        rw [eraseIdx_eq_take_drop_succ]
        exact .steered rfl split_ (fun full => room ⟨rfl, full⟩) rfl

end NeigeCalm.Harness
