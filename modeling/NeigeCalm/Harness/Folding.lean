import NeigeCalm.Library.Machine
import NeigeCalm.Harness.Queue
import Mathlib.Data.List.Chain

/-!
# What folding keeps

The entries accepted by a queue fall into consecutive segments: one for each entry it holds, which
has absorbed the whole segment, and one for each entry it dropped.  `Covers` says what an entry
keeps of a segment it absorbed.
-/

namespace NeigeCalm.Harness

open Library List Machine QueueEntry

def QueueEntry.attachments : QueueEntry → List BoundAttachment
  | .user entry => entry.attachments
  | .legacyUser .. | .system .. => []

def QueueEntry.reportEdit : QueueEntry → Option ReportEdit
  | .system (.reportEdited edit) _ _ => some edit
  | _ => none

/-- `validate_attachment_list`: no more than a message may carry, and none of them twice. -/
def validateAttachmentList (attachments : List BoundAttachment) : Prop :=
  attachments.length ≤ maxAttachmentsPerMessage ∧ (attachments.map BoundAttachment.id).Nodup

/-- Texts with a blank line between each two. -/
def blankLineJoin : List Text → Text
  | [] => []
  | text :: texts => text ++ texts.flatMap ("\n\n".toList ++ ·)

/-- `edit` is what a run of edits of one track comes to, each made on the body the one before
left. -/
structure ReportEdit.Composes (edits : List ReportEdit) (edit : ReportEdit) : Prop where
  track : ∀ other ∈ edits, other.trackId = edit.trackId ∧ other.presentation = .legacy
  continues : edits.IsChain fun one next => next.bodyBefore = some one.body
  first : edits.head?.map ReportEdit.bodyBefore = some edit.bodyBefore
  last : edits.getLast?.map ReportEdit.body = some edit.body

/-- What `entry` keeps of the entries it absorbed. -/
structure Covers (absorbed : List QueueEntry) (entry : QueueEntry) : Prop where
  authored : ∀ other ∈ absorbed, other.isUserAuthored = entry.isUserAuthored
  text : entry.isUserAuthored = true →
    entry.userText = some (blankLineJoin (absorbed.filterMap QueueEntry.userText))
  messageIds : entry.messageIds = absorbed.flatMap QueueEntry.messageIds
  attached : ∀ other ∈ absorbed,
    other.attachments.map BoundAttachment.id ⊆ entry.attachments.map BoundAttachment.id
  valid : (∀ other ∈ absorbed, validateAttachmentList other.attachments) →
    validateAttachmentList entry.attachments
  edits : ∀ edit, entry.reportEdit = some edit → edit.presentation = .legacy →
    ∃ edits : List ReportEdit, absorbed.map QueueEntry.reportEdit = edits.map some ∧
      ReportEdit.Composes edits edit

theorem Covers.single (entry : QueueEntry) : Covers [entry] entry where
  authored other among := by rw [mem_singleton.mp among]
  text authored := by cases entry <;> simp_all [userText, blankLineJoin, isUserAuthored]
  messageIds := by simp
  attached other among := by rw [mem_singleton.mp among]; exact fun _ => id
  valid each := each entry (mem_singleton_self entry)
  edits edit isEdit legacy := ⟨[edit], by simp [isEdit], by simpa using legacy,
    isChain_singleton _, rfl, rfl⟩

theorem blankLineJoin_concat (some_ : texts ≠ []) :
    blankLineJoin (texts ++ [text]) = blankLineJoin texts ++ "\n\n".toList ++ text := by
  cases texts with
  | nil => exact absurd rfl some_
  | cons => simp [blankLineJoin]

theorem validateAttachmentList_unheld (isHeld : validateAttachmentList held)
    (isNew : validateAttachmentList new)
    (fits : held.length + (unheld held new).length ≤ maxAttachmentsPerMessage) :
    validateAttachmentList (held ++ unheld held new) := by
  refine ⟨by rwa [length_append], ?_⟩
  rw [map_append]
  refine nodup_append'.mpr ⟨isHeld.2, isNew.2.sublist (filter_sublist.map _), ?_⟩
  intro id inHeld inNew
  obtain ⟨old, isOld, rfl⟩ := mem_map.mp inHeld
  obtain ⟨_, among, same⟩ := mem_map.mp inNew
  have absent := (mem_filter.mp among).2
  rw [Bool.not_eq_true', any_eq_false] at absent
  exact absent old isOld (beq_iff_eq.mpr same.symm)

theorem ids_subset_unheld :
    new.map BoundAttachment.id ⊆ (held ++ unheld held new).map BoundAttachment.id := by
  intro id inNew
  obtain ⟨attachment, among, rfl⟩ := mem_map.mp inNew
  by_cases named : held.any fun other => other.id == attachment.id
  · obtain ⟨other, isHeld, same⟩ := any_eq_true.mp named
    exact mem_map.mpr ⟨other, mem_append_left _ isHeld, beq_iff_eq.mp same⟩
  · have kept : attachment ∈ unheld held new := mem_filter.mpr ⟨among, by simpa using named⟩
    exact mem_map_of_mem (mem_append_right _ kept)

section

variable (folded : Folded last incoming survivor)
include folded

theorem Folded.authored : incoming.isUserAuthored = last.isUserAuthored ∧
    survivor.isUserAuthored = last.isUserAuthored := by
  cases folded <;> exact ⟨rfl, rfl⟩

theorem Folded.messageIds : survivor.messageIds = last.messageIds ++ incoming.messageIds := by
  cases folded <;> rfl

theorem Folded.text (authored : last.isUserAuthored = true) :
    ∃ held new, last.userText = some held ∧ incoming.userText = some new ∧
      survivor.userText = some (held ++ "\n\n".toList ++ new) := by
  cases folded with
  | user | legacyUser => exact ⟨_, _, rfl, rfl, rfl⟩
  | trackGoal | reportEdited => cases authored

theorem Folded.attachments :
    survivor.attachments = last.attachments ++ unheld last.attachments incoming.attachments ∧
      last.attachments.length + (unheld last.attachments incoming.attachments).length ≤
        maxAttachmentsPerMessage := by
  cases folded with
  | user _ fits => exact ⟨rfl, fits⟩
  | legacyUser none =>
    rw [show (QueueEntry.user _).attachments = [] from none]
    exact ⟨rfl, Nat.zero_le _⟩
  | trackGoal | reportEdited => exact ⟨rfl, Nat.zero_le _⟩

end

theorem ReportEdit.Composes.fold (run : ReportEdit.Composes edits held)
    (sameTrack : held.trackId = new.trackId) (legacy : new.presentation = .legacy)
    (onBody : new.bodyBefore = some held.body) (track : edit.trackId = held.trackId)
    (first : edit.bodyBefore = held.bodyBefore) (last : edit.body = new.body) :
    ReportEdit.Composes (edits ++ [new]) edit := by
  have some_ : edits ≠ [] := by
    rintro rfl
    cases run.first
  refine ⟨?_, ?_, by rw [head?_append_of_ne_nil _ some_, first, run.first], by simp [last]⟩
  · intro other among
    rcases mem_append.mp among with old | isNew
    · exact track ▸ run.track other old
    · rw [mem_singleton.mp isNew, track]
      exact ⟨sameTrack.symm, legacy⟩
  · refine isChain_append.mpr ⟨run.continues, isChain_singleton _, ?_⟩
    intro before isBefore next isNext
    have isBody := run.last
    rw [Option.mem_def.mp isBefore] at isBody
    cases isNext
    rw [onBody, ← Option.some.inj isBody]

/-- **A fold keeps what the tail covered, and the entry folded into it.** -/
theorem Covers.fold (covers : Covers absorbed last) (some_ : absorbed ≠ [])
    (folded : Folded last incoming survivor) : Covers (absorbed ++ [incoming]) survivor := by
  obtain ⟨sameAuthor, isAuthor⟩ := folded.authored
  obtain ⟨isUnion, fits⟩ := folded.attachments
  refine ⟨?_, ?_, ?_, ?_, ?_, ?_⟩
  · rw [isAuthor, forall_mem_append, forall_mem_singleton]
    exact ⟨covers.authored, sameAuthor⟩
  · intro authored
    rw [isAuthor] at authored
    obtain ⟨held, new, isHeld, isNew, joined⟩ := folded.text authored
    have text := covers.text authored
    have texts : absorbed.filterMap userText ≠ [] := by
      obtain ⟨first, _, rfl⟩ := exists_cons_of_ne_nil some_
      have isUser := (covers.authored first mem_cons_self).trans authored
      cases first <;> simp_all [userText, isUserAuthored]
    rw [filterMap_append, filterMap_cons_some isNew, filterMap_nil, blankLineJoin_concat texts,
      joined, Option.some.inj (isHeld.symm.trans text)]
  · rw [folded.messageIds, covers.messageIds, flatMap_append, flatMap_singleton]
  · rw [isUnion, forall_mem_append, forall_mem_singleton]
    refine ⟨fun other among => ?_, ids_subset_unheld⟩
    rw [map_append]
    exact fun id named => mem_append_left _ (covers.attached other among named)
  · rw [isUnion, forall_mem_append, forall_mem_singleton]
    rintro ⟨each, isNew⟩
    exact validateAttachmentList_unheld (covers.valid each) isNew fits
  · intro edit isEdit legacy
    cases folded with
    | user | legacyUser | trackGoal => cases isEdit
    | @reportEdited held new _ _ _ _ _ follows =>
      cases isEdit
      rw [foldReportEdit] at follows
      split at follows
      next replaced =>
        cases follows
        exact absurd legacy replaced.2
      next =>
        split at follows
        next continues =>
          obtain ⟨isLegacy, newLegacy, sameTrack, onBody⟩ := continues
          cases follows
          obtain ⟨edits, isEdits, run⟩ := covers.edits held rfl isLegacy
          refine ⟨edits ++ [new], by simp [isEdits, reportEdit], ?_⟩
          exact run.fold sameTrack newLegacy onBody rfl rfl rfl
        next => cases follows

/-! ## Segments -/

/-- `accepted` falls into segments: each entry of `queue` absorbed one, after those that went with
dropped entries. -/
inductive Segmented : List QueueEntry → List QueueEntry → Prop
  | nil : Segmented [] []
  | held :
      Segmented accepted queue → (∀ other ∈ dropped, other.isUserAuthored = false) →
      absorbed ≠ [] → Covers absorbed entry →
      Segmented (accepted ++ dropped ++ absorbed) (queue ++ [entry])

section

variable (segmented : Segmented accepted queue)

include segmented

theorem Segmented.push (system : ∀ other ∈ dropped, other.isUserAuthored = false)
    (entry : QueueEntry) : Segmented (accepted ++ dropped ++ [entry]) (queue ++ [entry]) :=
  segmented.held system (cons_ne_nil _ _) (.single entry)

/-- A dropped entry leaves its segment behind. -/
theorem Segmented.evict (isQueue : queue = front ++ entry :: rest)
    (soft : entry.isHardFire = false) :
    ∃ kept dropped, accepted = kept ++ dropped ∧ Segmented kept (front ++ rest) ∧
      ∀ other ∈ dropped, other.isUserAuthored = false := by
  induction segmented generalizing rest with
  | nil => simp at isQueue
  | @held accepted _ dropped absorbed last _ system some_ covers ih =>
    rcases rest.eq_nil_or_concat' with rfl | ⟨_, _, rfl⟩
    · obtain ⟨rfl, same⟩ := append_inj' isQueue rfl
      obtain rfl := singleton_inj.mp same
      refine ⟨accepted, dropped ++ absorbed, append_assoc _ _ _, by rwa [append_nil], ?_⟩
      exact forall_mem_append.mpr ⟨system, fun other among =>
        (covers.authored other among).trans (last.system_of_soft soft)⟩
    · rw [← cons_append, ← append_assoc] at isQueue
      obtain ⟨isFront, same⟩ := append_inj' isQueue rfl
      obtain rfl := singleton_inj.mp same
      obtain ⟨kept, _, rfl, shorter, system'⟩ := ih isFront
      refine ⟨_, [], (append_nil _).symm, ?_, by simp⟩
      rw [← append_assoc, append_assoc kept]
      exact shorter.held (forall_mem_append.mpr ⟨system', system⟩) some_ covers

theorem Segmented.fold (isQueue : queue = front ++ [last]) (folded : Folded last entry survivor) :
    Segmented (accepted ++ [entry]) (front ++ [survivor]) := by
  cases segmented with
  | nil => simp at isQueue
  | held early system some_ covers =>
    obtain ⟨rfl, same⟩ := append_inj' isQueue rfl
    cases same
    rw [append_assoc]
    exact early.held system (by simp) (covers.fold some_ folded)

/-- The user entries hold exactly the messages of the users. -/
theorem Segmented.messageIds :
    (queue.filter isUserAuthored).flatMap messageIds =
      (accepted.filter isUserAuthored).flatMap messageIds := by
  induction segmented with
  | nil => rfl
  | @held _ _ dropped _ entry _ system _ covers ih =>
    have none_ : dropped.filter isUserAuthored = [] :=
      filter_eq_nil_iff.mpr fun other among => by simp [system other among]
    rw [filter_append, filter_append, filter_append, none_, append_nil, flatMap_append,
      flatMap_append, ih]
    congr 1
    cases authored : entry.isUserAuthored with
    | true =>
      rw [filter_cons_of_pos authored, filter_nil, flatMap_singleton, covers.messageIds,
        filter_eq_self.mpr fun other among => (covers.authored other among).trans authored]
    | false =>
      rw [filter_cons_of_neg (by simp [authored]), filter_nil, filter_eq_nil_iff.mpr]
      exact fun other among => by simp [covers.authored other among, authored]

end

/-! ## Runs of enqueues -/

/-- One enqueue, with the entry if it was accepted. -/
def arrive (queue : List QueueEntry) (entry : QueueEntry) : List QueueEntry × List QueueEntry :=
  match enqueuePendingObservation queue entry with
  | (.accepted _, after) => (after, [entry])
  | (.rejected, after) => (after, [])

theorem Segmented.arrive (segmented : Segmented accepted queue) (entry : QueueEntry) :
    Segmented (accepted ++ (arrive queue entry).2) (arrive queue entry).1 := by
  have enqueued := enqueuePendingObservation_enqueued queue entry
  rw [Harness.arrive]
  generalize enqueuePendingObservation queue entry = result at enqueued
  obtain ⟨_, _⟩ := result
  cases enqueued with
  | folded isQueue folded => exact segmented.fold isQueue (foldInto_folded folded)
  | pushed =>
    rw [← append_nil accepted]
    exact segmented.push (forall_mem_nil _) entry
  | evicted isQueue soft =>
    obtain ⟨_, _, rfl, shorter, system⟩ := segmented.evict isQueue soft
    exact shorter.push system entry
  | rejected => rwa [append_nil]

theorem Segmented.start (queue : List QueueEntry) : Segmented queue queue := by
  induction queue using reverseRecOn with
  | nil => exact .nil
  | append_singleton _ entry ih =>
    have pushed := ih.push (forall_mem_nil _) entry
    rwa [append_nil] at pushed

theorem tryFoldTail_notFolded
    (refused : (tryFoldTail queue entry maxFoldedUserChars).1 = .notFolded) :
    (tryFoldTail queue entry maxFoldedUserChars).2 = queue := by
  unfold tryFoldTail at refused ⊢
  split
  next => rfl
  next isLast =>
    simp only [isLast] at refused
    split
    next => rfl
    next folded => simp only [folded, reduceCtorEq] at refused

/-- **Folding loses no user content and composes report edits.**  Whatever is enqueued, the
entries accepted fall into consecutive segments, each covered by the entry that absorbed it; only
segments no user wrote are dropped.  A refused fold changes nothing. -/
theorem folding_loses_nothing (start incoming : List QueueEntry) :
    Segmented (start ++ outputs arrive start incoming) (run arrive start incoming) ∧
    ((run arrive start incoming).filter QueueEntry.isUserAuthored).flatMap QueueEntry.messageIds =
      ((start ++ outputs arrive start incoming).filter
        QueueEntry.isUserAuthored).flatMap QueueEntry.messageIds ∧
    ∀ (queue : List QueueEntry) (entry : QueueEntry) (maxFoldedUserChars : Nat),
      ((tryFoldTail queue entry maxFoldedUserChars).1 = .notFolded →
        (tryFoldTail queue entry maxFoldedUserChars).2 = queue) ∧
      ((tryFoldReportEditTail queue entry).1 = .notFolded →
        (tryFoldReportEditTail queue entry).2 = queue) := by
  have segmented := outputs_preserve (fun queue accepted => Segmented accepted queue)
    (fun _ _ entry segmented => segmented.arrive entry) (.start start) incoming
  refine ⟨segmented, segmented.messageIds, fun queue entry maxFoldedUserChars =>
    ⟨tryFoldTail_notFolded, fun refused => ?_⟩⟩
  unfold tryFoldReportEditTail at refused ⊢
  split
  next both => exact tryFoldTail_notFolded (by rwa [if_pos both] at refused)
  next => rfl

end NeigeCalm.Harness
