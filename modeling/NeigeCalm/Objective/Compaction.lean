import NeigeCalm.Objective.Intents

/-!
# Compactions, and what a whole run issues

`pendingCompact` carries a compaction from the settle or close that asks for it
to the next idle host with nothing queued, which executes it under the next
number.  `Pace` says what one event does to both; the results about whole runs
follow from it, and `issued_once` collects what the host can rely on.
-/

namespace NeigeCalm.Objective

open Library List Machine

variable {F H : Type}

/-! ## The compactions of the trigger rules -/

section Triggers

/-- The sequence numbers of the compactions asked for, in order. -/
def sequences (intents : List (Intent F H)) : List Nat :=
  intents.filterMap fun
    | .execute (.compact call) => some call.sequence
    | _ => none

/-- Occurrences that ask for neither settling, closing, idling nor reminding. -/
def Occurrence.isPlain : Occurrence H → Bool
  | .notice _ | .evaluationStarted _ => true
  | _ => false

theorem fire_plain (s : State F H) (plain : ∀ occurrence ∈ occurrences, occurrence.isPlain = true) :
    (fire digest s occurrences).1 = s ∧ sequences (fire digest s occurrences).2 = [] := by
  induction occurrences with
  | nil => exact ⟨rfl, rfl⟩
  | cons occurrence _ ih =>
    obtain ⟨unchanged, silent⟩ := ih fun other member => plain other (mem_cons_of_mem _ member)
    have here := plain occurrence mem_cons_self
    cases occurrence with
    | notice =>
      exact ⟨unchanged, by rw [fire, sequences, filterMap_append]; exact silent⟩
    | evaluationStarted =>
      refine ⟨unchanged, ?_⟩
      rw [fire, sequences, filterMap_append]
      refine append_eq_nil_iff.mpr ⟨?_, silent⟩
      rw [filterMap_eq_nil_iff]
      intro intent member
      simp only [fireOne, runChecks] at member
      split at member
      · cases member
      · split at member
        · simp only [mem_flatMap, mem_map] at member
          obtain ⟨_, -, _, -, rfl⟩ := member
          rfl
        · cases member
    | settled | closed | hostIdle | usageReported => cases here

/-- A compaction is admitted by an idle host exactly when nothing is queued. -/
theorem admit_compact (compact : Compact F H) (queueLen : Nat) :
    admitCall compact { idle := true, queueLen } false =
      if queueLen = 0 then .ready else .defer .queueNotEmpty := by
  by_cases empty : queueLen = 0
  · subst empty
    rfl
  · have queued : 0 < queueLen := Nat.pos_of_ne_zero empty
    simp [admitCall, Command.authority, Command.admission, Authority.requiresUserApproval, queued,
      empty]

/-- What a handler wrote is what is stored after the reaction. -/
theorem fire_put {s : State F H} (silent : occurrence ≠ .usageReported) :
    (fire digest (s.put key o) [occurrence]).1.objectives[key]? = some o := by
  rw [fire_singleton, fireOne_objectives _ silent, State.get_put]

theorem afterSettle_put (s : State F H) (key : ObjectiveKey) (o : ObjectiveState F H)
    (ledger : Ledger F) (decision : Decision) :
    (afterSettle (s.put key (o.settle ledger decision s.usage)) key decision).1 =
        (if o.definition.compact = .everySettle then
          { s.put key (o.settle ledger decision s.usage) with pendingCompact := true }
        else s.put key (o.settle ledger decision s.usage)) ∧
      sequences
        (afterSettle (s.put key (o.settle ledger decision s.usage)) key decision).2 = [] := by
  simp only [afterSettle, State.put_get, if_true]
  refine ⟨rfl, ?_⟩
  rw [sequences, filterMap_append]
  split <;> split <;> rfl

theorem compactPolicy_put_close (s : State F H) (key : ObjectiveKey) (o : ObjectiveState F H) :
    compactPolicy (s.put key (o.close s.usage)) key = some o.definition.compact := by
  rw [compactPolicy, State.get_put]
  rfl

theorem remindBudgets_sequences (s : State F H) :
    sequences (remindBudgets s).2 = [] := by
  rw [sequences, filterMap_eq_nil_iff]
  intro intent member
  obtain ⟨_, _, rfl⟩ := mem_remindBudgets member
  rfl

end Triggers

/-! ## What one event does -/

variable [Scalar F] [DecidableEq H] {digest : Canonical F → H}

/-- The event settled an objective that compacts on every settle, or closed one
that compacts on close. -/
inductive Arms (digest : Canonical F → H) (s : State F H) (event : Event F H) : Prop
  | settled {key : ObjectiveKey} {id : EvaluationId} {decision : Decision} {note : String}
    {o o' : ObjectiveState F H} (asked : event = .settled key id decision note)
    (before : s.objectives[key]? = some o)
    (after : (react digest s event).1.objectives[key]? = some o')
    (policy : o.definition.compact = .everySettle)
    (appended : ∃ entry, o'.ledger.entries = o.ledger.entries ++ [entry])
  | closed {key : ObjectiveKey} {o o' : ObjectiveState F H} (asked : event = .closed key)
    (before : s.objectives[key]? = some o)
    (after : (react digest s event).1.objectives[key]? = some o')
    (policy : o.definition.compact = .onClose) (notClosed : ∀ usage, o.status ≠ .closed usage)
    (isClosed : ∃ usage, o'.status = .closed usage)

/-- What one event does to the pending compaction and the compactions so far,
and the compactions it asks for. -/
inductive Pace (digest : Canonical F → H) (s : State F H) (event : Event F H) :
    Bool → Nat → List Nat → Prop
  | executed (idle : event = .hostIdle 0) (pending : s.pendingCompact = true) :
    Pace digest s event false (s.compactions + 1) [s.compactions]
  | armed (arms : Arms digest s event) : Pace digest s event true s.compactions []
  | kept (waits : event = .hostIdle 0 → s.pendingCompact = false) :
    Pace digest s event s.pendingCompact s.compactions []

theorem react_hostIdle_zero (s : State F H) :
    Pace digest s (.hostIdle 0) (react digest s (.hostIdle 0)).1.pendingCompact
      (react digest s (.hostIdle 0)).1.compactions
      (sequences (react digest s (.hostIdle 0)).2) := by
  have fired : react digest s (.hostIdle 0) = compactWhenIdle digest s 0 := by
    simp [react, apply, fireOne]
  rw [fired]
  cases pending : s.pendingCompact with
  | false =>
    simp only [compactWhenIdle, pending, Bool.not_false, if_true]
    rw [← pending]
    exact .kept fun _ => pending
  | true =>
    simp only [compactWhenIdle, pending, Bool.not_true, admit_compact]
    exact .executed rfl pending

/-- An event that is reported plainly neither asks for a compaction nor executes one. -/
theorem Pace.of_plain (same : s'.pendingCompact = s.pendingCompact ∧ s'.compactions = s.compactions)
    (busy : event ≠ .hostIdle 0) (plain : ∀ occurrence ∈ occurrences, occurrence.isPlain = true) :
    Pace digest s event (fire digest s' occurrences).1.pendingCompact
      (fire digest s' occurrences).1.compactions
      (sequences (fire digest s' occurrences).2) := by
  obtain ⟨unchanged, silent⟩ : _ ∧ sequences (fire digest s' occurrences).2 = [] :=
    fire_plain s' plain
  rw [unchanged, silent, same.1, same.2]
  exact .kept fun idle => absurd idle busy

/-- The reducer leaves the pending compaction and the counter to the trigger rules. -/
theorem Applied.compactions (applied : Applied digest s event s' occurrences) :
    s'.pendingCompact = s.pendingCompact ∧ s'.compactions = s.compactions := by
  cases applied <;> exact ⟨rfl, rfl⟩

theorem Applied.pace {s s' : State F H} (applied : Applied digest s event s' occurrences)
    (busy : event ≠ .hostIdle 0) (reacted : react digest s event = fire digest s' occurrences) :
    Pace digest s event (fire digest s' occurrences).1.pendingCompact
      (fire digest s' occurrences).1.compactions
      (sequences (fire digest s' occurrences).2) := by
  have same := applied.compactions
  cases applied with
  | refused | created | unapproved =>
    exact .of_plain same busy (by simp [approvalRequired, Occurrence.isPlain])
  | delivered =>
    refine .of_plain same busy fun occurrence member => ?_
    obtain ⟨_, rfl⟩ := mem_deliver s member
    rfl
  | @changed o _ _ _ key found change =>
    cases change with
    | restated =>
      exact .of_plain same busy fun occurrence member => by
        rcases mem_restated member with rfl | rfl <;> rfl
    | @settled decision note _ ledger _ _ _ id _ _ recorded =>
      have after : (react digest s (.settled key id decision note)).1.objectives[key]? =
          some (o.settle ledger decision s.usage) := by
        rw [reacted]
        exact fire_put (by simp)
      obtain ⟨next, silent⟩ := afterSettle_put s key o ledger decision
      rw [fire_singleton, fireOne, next, silent]
      by_cases policy : o.definition.compact = .everySettle
      · rw [if_pos policy]
        obtain ⟨-, -, entries, -⟩ := Ledger.settle_ok recorded
        exact .armed (.settled rfl found after policy ⟨_, entries⟩)
      · rw [if_neg policy]
        exact .kept fun idle => absurd idle busy
    | closed notClosed =>
      have after : (react digest s (.closed key)).1.objectives[key]? = some (o.close s.usage) := by
        rw [reacted]
        exact fire_put (by simp)
      rw [fire_singleton, fireOne, compactPolicy_put_close]
      by_cases policy : o.definition.compact = .onClose
      · rw [if_pos (congrArg some policy)]
        exact .armed (.closed rfl found after policy notClosed ⟨_, rfl⟩)
      · rw [if_neg fun same => policy (Option.some.inj same)]
        exact .kept fun idle => absurd idle busy
    | reminded =>
      rw [fire_singleton, fireOne, remindBudgets_sequences]
      exact .kept fun idle => absurd idle busy
    | _ => exact .of_plain same busy (by simp [Occurrence.isPlain])
  | @idle queueLen =>
    have queued : queueLen ≠ 0 := fun empty => busy (by rw [empty])
    rw [fire_singleton, fireOne, compactWhenIdle]
    split
    · exact .kept fun idle => absurd idle busy
    · simp only [admit_compact, if_neg queued]
      exact .kept fun idle => absurd idle busy
  | used =>
    rw [fire_singleton, fireOne, remindBudgets_sequences]
    exact .kept fun idle => absurd idle busy

theorem react_pace (digest : Canonical F → H) (s : State F H) (event : Event F H) :
    ∃ pending compactions asked, Pace digest s event pending compactions asked ∧
      (react digest s event).1.pendingCompact = pending ∧
      (react digest s event).1.compactions = compactions ∧
      sequences (react digest s event).2 = asked := by
  refine ⟨_, _, _, ?_, rfl, rfl, rfl⟩
  by_cases idle : event = .hostIdle 0
  · subst idle
    exact react_hostIdle_zero s
  · exact (apply_applied s event).pace idle rfl

/-- The event makes the host execute a compaction. -/
def Executes (digest : Canonical F → H) (s : State F H) (event : Event F H) : Prop :=
  ∃ call, .execute call ∈ (react digest s event).2

theorem executes_iff : Executes digest s event ↔ sequences (react digest s event).2 ≠ [] := by
  rw [Executes, sequences, ne_eq, filterMap_eq_nil_iff]
  push Not
  constructor
  · rintro ⟨⟨call⟩, member⟩
    exact ⟨_, member, nofun⟩
  · rintro ⟨intent, member, some⟩
    cases intent with
    | execute call => exact ⟨call, member⟩
    | runCheck | notify => exact absurd rfl some

/-- A compaction is executed by an idle host, for a pending request, and ends it. -/
theorem Executes.pending (executes : Executes digest s event) :
    event = .hostIdle 0 ∧ s.pendingCompact = true ∧
      (react digest s event).1.pendingCompact = false := by
  rw [executes_iff] at executes
  obtain ⟨_, _, _, pace, ends, -, asked⟩ := react_pace digest s event
  cases pace with
  | executed idle pending => exact ⟨idle, pending, ends⟩
  | armed | kept => exact absurd asked executes

theorem executes_of_pending (pending : s.pendingCompact = true) :
    Executes digest s (.hostIdle 0) := by
  rw [executes_iff]
  obtain ⟨_, _, _, pace, -, -, asked⟩ := react_pace digest s (.hostIdle 0)
  cases pace with
  | executed => rw [asked]; nofun
  | armed arms => cases arms with | settled asked | closed asked => cases asked
  | kept waits => rw [waits rfl] at pending; cases pending

/-- A settle or close that a compaction follows leaves one pending. -/
theorem Arms.pending (arms : Arms digest s event) :
    (react digest s event).1.pendingCompact = true := by
  have applied : Applied digest s event _ _ := apply_applied s event
  have reacted : react digest s event =
    fire digest (apply digest s event).1 (apply digest s event).2 := rfl
  generalize (apply digest s event).1 = s', (apply digest s event).2 = occurrences
    at applied reacted
  cases arms with
  | @settled key _ decision _ _ _ asked before after policy appended =>
    subst asked
    have changes : (fire digest s' occurrences).1.objectives[key]? ≠ s.objectives[key]? := by
      intro same
      obtain ⟨_, entries⟩ := appended
      rw [reacted, same, before] at after
      obtain rfl := Option.some.inj after
      simp at entries
    cases applied with
    | refused => exact absurd (by rw [fire_singleton, fireOne]) changes
    | @changed o₀ _ _ _ _ found change =>
      cases change with
      | kept => exact absurd (by rw [State.put_self found, fire]) changes
      | started asked => rcases asked with same | same <;> cases same
      | @settled _ _ _ ledger =>
        obtain rfl := Option.some.inj (found.symm.trans before)
        rw [reacted, fire_singleton, fireOne, (afterSettle_put s key o₀ ledger decision).1,
          if_pos policy]
  | @closed key _ _ asked before after policy notClosed isClosed =>
    subst asked
    have changes : (fire digest s' occurrences).1.objectives[key]? ≠ s.objectives[key]? := by
      intro same
      obtain ⟨usage, closed⟩ := isClosed
      rw [reacted, same, before] at after
      obtain rfl := Option.some.inj after
      exact absurd closed (notClosed usage)
    cases applied with
    | refused => exact absurd (by rw [fire_singleton, fireOne]) changes
    | changed found change =>
      cases change with
      | kept => exact absurd (by rw [State.put_self found, fire]) changes
      | started asked => rcases asked with same | same <;> cases same
      | closed =>
        obtain rfl := Option.some.inj (found.symm.trans before)
        rw [reacted, fire_singleton, fireOne, compactPolicy_put_close,
          if_pos (congrArg some policy)]

/-! ## Whole runs -/

/-- A pending request that appears during a run was asked for in it. -/
theorem arms_of_run (events : List (Event F H)) (idle : s.pendingCompact = false)
    (pending : (run (react digest) s events).pendingCompact = true) :
    ∃ before event after, events = before ++ event :: after ∧
      Arms digest (run (react digest) s before) event := by
  induction events generalizing s with
  | nil => rw [run_nil, idle] at pending; cases pending
  | cons event rest ih =>
    obtain ⟨after, _, _, pace, next, -, -⟩ := react_pace digest s event
    have later : after = false → _ := fun unarmed => ih (next.trans unarmed) pending
    cases pace with
    | armed arms => exact ⟨[], event, rest, rfl, arms⟩
    | executed | kept =>
      obtain ⟨before, armer, after, rfl, arms⟩ := later (by first | rfl | exact idle)
      exact ⟨event :: before, armer, after, rfl, arms⟩

/-- A pending request waits for the next idle host with nothing queued. -/
theorem pending_of_run (events : List (Event F H)) (busy : ∀ event ∈ events, event ≠ .hostIdle 0)
    (pending : s.pendingCompact = true) : (run (react digest) s events).pendingCompact = true := by
  induction events generalizing s with
  | nil => exact pending
  | cons event _ ih =>
    refine ih (fun other member => busy other (mem_cons_of_mem _ member)) ?_
    obtain ⟨_, _, _, pace, next, -, -⟩ := react_pace digest s event
    cases pace with
    | executed idle => exact absurd idle (busy event mem_cons_self)
    | armed => exact next
    | kept => exact next.trans pending

/-- Over a run the compactions are numbered on from the counter, one by one. -/
theorem outputs_sequences (digest : Canonical F → H) (s : State F H) (events : List (Event F H)) :
    ∃ n ≤ events.length,
      sequences (outputs (react digest) s events) = range' s.compactions n ∧
        (run (react digest) s events).compactions = s.compactions + n := by
  induction events generalizing s with
  | nil => exact ⟨0, Nat.le_refl _, rfl, rfl⟩
  | cons event _ ih =>
    obtain ⟨n, bound, numbers, final⟩ := ih (react digest s event).1
    rw [outputs_cons, run_cons, final, sequences, filterMap_append]
    change ∃ n ≤ _, sequences _ ++ sequences _ = _ ∧ _
    obtain ⟨_, _, _, pace, -, counted, asked⟩ := react_pace digest s event
    rw [numbers, counted, asked]
    cases pace with
    | executed =>
      exact ⟨n + 1, Nat.succ_le_succ bound, by rw [range'_succ]; rfl, by omega⟩
    | armed | kept => exact ⟨n, Nat.le_succ_of_le bound, rfl, rfl⟩

/-- Evaluation numbers grow by at most one in an event. -/
theorem evaluations_le_length (bound : Nat) (events : List (Event F H))
    (below : ∀ (key : ObjectiveKey) (o : ObjectiveState F H),
      s.objectives[key]? = some o → o.evaluations ≤ bound) {key : ObjectiveKey}
    (stored : (run (react digest) s events).objectives[key]? = some o) :
    o.evaluations ≤ bound + events.length := by
  induction events generalizing s bound with
  | nil => exact below key o stored
  | cons event rest ih =>
    rw [length_cons, Nat.add_comm rest.length, ← Nat.add_assoc]
    exact ih _ (react_each (fun _ _ => Nat.zero_le _) (fun change le =>
      change.evaluations_le_succ.trans (Nat.succ_le_succ le)) below event) stored

/-- What the host can rely on in the intents of one run from the default state. -/
structure IssuedOnce (digest : Canonical F → H) (events : List (Event F H)) : Prop where
  /-- No check run is asked for twice. -/
  runs : (runKeys (outputs (react digest) State.default events)).Nodup
  /-- Compactions are numbered without gap or repetition. -/
  sequences : ∃ n, sequences (outputs (react digest) State.default events) = range n
  /-- One event asks for at most one compaction. -/
  single : ∀ before event after, events = before ++ event :: after →
    (Objective.sequences
      (react digest (run (react digest) State.default before) event).2).length ≤ 1
  /-- Between two executions there is a settle or close that asks for the second. -/
  asked : ∀ before first between second after,
    events = before ++ first :: between ++ second :: after →
    Executes digest (run (react digest) State.default before) first →
    Executes digest (run (react digest) State.default (before ++ first :: between)) second →
    ∃ earlier event later, between = earlier ++ event :: later ∧
      Arms digest (run (react digest) State.default (before ++ first :: earlier)) event
  /-- After such a settle or close the next idle host with nothing queued compacts. -/
  executed : ∀ before event between after,
    events = before ++ event :: between ++ .hostIdle 0 :: after →
    Arms digest (run (react digest) State.default before) event →
    (∀ other ∈ between, other ≠ .hostIdle 0) →
    Executes digest (run (react digest) State.default (before ++ event :: between)) (.hostIdle 0)
  /-- No counter wraps. -/
  compactions : (run (react digest) State.default events).compactions < 2 ^ 64
  evaluations : ∀ (key : ObjectiveKey) (o : ObjectiveState F H),
    (run (react digest) State.default events).objectives[key]? = some o → o.evaluations < 2 ^ 64

/-- **Evaluation ids and commands are issued at most once.** -/
theorem issued_once (digest : Canonical F → H) (events : List (Event F H))
    (short : events.length < 2 ^ 64) : IssuedOnce digest events := by
  obtain ⟨n, bound, numbers, final⟩ := outputs_sequences digest State.default events
  refine ⟨?_, ⟨n, ?_⟩, ?_, ?_, ?_, ?_, ?_⟩
  · exact (outputs_runKeys digest (fun _ _ stored => by simp [State.default] at stored) events).1
  · rw [numbers, range_eq_range']
    rfl
  · rintro before event after -
    obtain ⟨_, _, _, pace, -, -, asked⟩ :=
      react_pace digest (run (react digest) State.default before) event
    rw [asked]
    cases pace with
    | executed => exact Nat.le_refl _
    | armed | kept => exact Nat.zero_le _
  · rintro before _ between _ after - one two
    rw [run_append, run_cons] at two
    obtain ⟨earlier, event, later, split, arms⟩ :=
      arms_of_run between one.pending.2.2 two.pending.2.1
    refine ⟨earlier, event, later, split, ?_⟩
    rwa [run_append, run_cons]
  · rintro _ _ between _ - arms busy
    rw [run_append, run_cons]
    exact executes_of_pending (pending_of_run between busy arms.pending)
  · rw [final]
    exact (Nat.zero_add n).symm ▸ bound.trans_lt short
  · intro key o stored
    have le := evaluations_le_length 0 events
      (fun _ _ found => by simp [State.default] at found) stored
    omega

/-- The trial's evaluation is settled, which asks for a compaction, and the host is idle. -/
def trialCompacted : List (Event ℚ (Canonical ℚ)) :=
  trialAnswered ++ [.settled trial.key ⟨0⟩ .keep "green", .hostIdle 0]

theorem issued_once_trial :
    sequences (outputs (react id) State.default trialCompacted) = [0] ∧
      IssuedOnce id trialCompacted :=
  ⟨by decide +kernel, issued_once id trialCompacted (by decide)⟩

end NeigeCalm.Objective
