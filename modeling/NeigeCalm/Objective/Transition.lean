import NeigeCalm.Library.OrderedMap
import NeigeCalm.Objective.Engine

/-!
# What one event can do

`Change` says what an event can do to one stored objective, and what it reports;
`Applied digest s event s' occurrences` lists every outcome of the reducer.
`apply_applied` says that the list is complete: the invariants of the engine are
proved from it and never unfold a handler again.

`react_move` follows one key after the trigger rules have run as well: an
objective is created by a definition, moves by a `Change`, and is never removed.
-/

namespace NeigeCalm.Objective

open Library Std OrderedMap

variable {F H : Type}

/-! ## Stored samples -/

/-- The samples of one check received so far. -/
def Samples.received (samples : Samples F) (check : CheckId) :
    ExtTreeMap Nat (SampleOutput F) :=
  samples.getD check ∅

/-- `samples` with one more sample of `check`. -/
def Samples.add (samples : Samples F) (check : CheckId) (sample : Nat) (output : SampleOutput F) :
    Samples F :=
  samples.insert check ((samples.received check).insert sample output)

theorem Samples.received_eq (samples : Samples F) :
    samples.received check = (samples[check]?).getD ∅ :=
  ExtTreeMap.getD_eq_getD_getElem?

theorem Samples.getElem?_add (samples : Samples F) (check other : CheckId) (sample : Nat)
    (output : SampleOutput F) :
    (samples.add check sample output)[other]? =
      if other = check then some ((samples.received check).insert sample output)
      else samples[other]? :=
  get_insert _ _ _ _

theorem Samples.received_add (samples : Samples F) (check other : CheckId) (sample : Nat)
    (output : SampleOutput F) :
    (samples.add check sample output).received other =
      if other = check then (samples.received check).insert sample output
      else samples.received other := by
  simp only [received_eq (samples.add check sample output), getElem?_add]
  split
  · rfl
  · rw [received_eq]

/-- Creating an entry that exists changes nothing. -/
theorem Samples.insert_received {samples : Samples F} {check : CheckId}
    (present : (samples.received check).contains sample = true) :
    samples.insert check (samples.received check) = samples := by
  cases found : samples[check]? with
  | none =>
    rw [received_eq, found] at present
    simp at present
  | some =>
    rw [received_eq, found]
    exact insert_of_get found

theorem State.put_self {s : State F H} {key : ObjectiveKey}
    (found : s.objectives[key]? = some objective) : s.put key objective = s := by
  rw [State.put, insert_of_get found]

variable (s : State F H) (key : ObjectiveKey)

theorem State.put_get :
    (s.put key objective).objectives[other]? =
      if other = key then some objective else s.objectives[other]? :=
  get_insert _ _ _ _

theorem State.get_put (objective : ObjectiveState F H) :
    (s.put key objective).objectives[key]? = some objective := by
  rw [put_get, if_pos rfl]

theorem State.put_put :
    (s.put key first).put key second = s.put key second := by
  simp only [State.put, insert_insert]

/-- `open` either finds an open objective or says why the event is ignored. -/
theorem openObjective_cases :
    (∃ objective, openObjective s key = .ok objective ∧ s.objectives[key]? = some objective ∧
      objective.status = .open) ∨
      ∃ reason, openObjective s key = .error (ignored reason) := by
  cases found : s.objectives[key]? with
  | none => exact .inr ⟨.unknownObjective, by simp [openObjective, found]⟩
  | some objective =>
    by_cases isOpen : objective.status = .open
    · exact .inl ⟨objective, by simp [openObjective, found, isOpen], rfl, isOpen⟩
    · exact .inr ⟨.notOpen, by simp [openObjective, found, isOpen]⟩

/-! ## The trigger rules leave the objectives alone, up to reminders -/

theorem start_cases (objective : ObjectiveState F H) (revision : Revision) :
    (objective.evaluates revision = true ∧ start objective revision = (objective, [])) ∨
      (objective.evaluates revision = false ∧ start objective revision =
        (objective.launch revision, [.evaluationStarted objective.definition.key])) := by
  cases same : objective.evaluates revision with
  | true => exact .inl ⟨rfl, by simp [start, same]⟩
  | false => exact .inr ⟨rfl, by simp [start, same]⟩

theorem mem_start (member : occurrence ∈ (start objective revision).2) :
    occurrence = .evaluationStarted objective.definition.key := by
  rcases start_cases objective revision with ⟨_, _⟩ | _ <;> simp_all

theorem fireOne_objectives (silent : occurrence ≠ .usageReported) :
    (fireOne digest s occurrence).1.objectives = s.objectives := by
  cases occurrence with
  | notice | evaluationStarted => rfl
  | settled =>
    simp only [fireOne, afterSettle]
    split
    · rfl
    · dsimp only
      split <;> rfl
  | closed =>
    simp only [fireOne]
    split <;> rfl
  | hostIdle =>
    simp only [fireOne, compactWhenIdle]
    split
    · rfl
    · split <;> rfl
  | usageReported => exact absurd rfl silent

theorem fire_objectives (silent : Occurrence.usageReported ∉ occurrences) :
    (fire digest s occurrences).1.objectives = s.objectives := by
  induction occurrences generalizing s with
  | nil => rfl
  | cons _ _ ih =>
    simp only [List.mem_cons, not_or] at silent
    rw [fire, ih _ silent.2, fireOne_objectives s (Ne.symm silent.1)]

@[simp] theorem fire_singleton :
    fire digest s [occurrence] = fireOne digest s occurrence := by
  simp [fire]

/-- A reminder changes nothing but the reminders given. -/
theorem remindBudget_eq (usage : Usage) (o : ObjectiveState F H) :
    ∃ budgetNotified, (remindBudget usage key o).1 = { o with budgetNotified } := by
  unfold remindBudget
  split
  · exact ⟨o.budgetNotified, rfl⟩
  · exact ⟨_, rfl⟩

/-! ## The outcomes of the reducer -/

/-- The notices that report that an event changed nothing. -/
def Notice.isRefusal : Notice H → Bool
  | .eventIgnored _ | .definitionRejected _ _ | .settleRefused _ _ => true
  | _ => false

variable [Scalar F] [DecidableEq H]

/-- What one event can do to the objective stored under `key`, at session usage `usage`, and
what it reports. -/
inductive Change (digest : Canonical F → H) (usage : Usage) (key : ObjectiveKey) :
    Event F H → ObjectiveState F H → ObjectiveState F H → List (Occurrence H) → Prop
  | kept : Change digest usage key event o o []
  | redefined (valid : definition.validate = []) (own : definition.key = key)
      (isOpen : o.status = .open)
    (same : standardHash digest o.definition = standardHash digest definition) :
    Change digest usage key (.definitionChanged definition) o (o.redefine definition usage) []
  | restated (valid : definition.validate = []) (own : definition.key = key)
      (isOpen : o.status = .open)
    (changed : standardHash digest o.definition ≠ standardHash digest definition) :
    Change digest usage key (.definitionChanged definition) o
      ((o.redefine definition usage).restate o.definition definition)
      ((if o.approval.isSome then [.notice (.approvalInvalidated definition.key)] else []) ++
        [approvalRequired digest definition])
  | approved (isOpen : o.status = .open)
    (valid : approval.isValidFor digest o.definition = true) :
    Change digest usage key (.approvalGranted key approval) o { o with approval := some approval }
      []
  | started (asked : event = .requested key revision ∨ event = .revisionDelivered revision)
    (isOpen : o.status = .open) (isApproved : o.isApproved digest = true)
    (other : o.evaluates revision = false) :
    Change digest usage key event o (o.launch revision) [.evaluationStarted o.definition.key]
  | collected {id : EvaluationId} (isOpen : o.status = .open)
    (running : o.evaluation = some (.running id revision samples))
    (defined : o.definition.check check = some definition)
    (inRange : sample < definition.config.samples)
    (accepted : definition.config.accepts output = true)
    (fresh : (samples.received check).contains sample = false)
    (waiting : complete o.definition (samples.add check sample output) = false) :
    Change digest usage key (.checkFinished key id check revision sample output) o
      (o.collect id revision (samples.add check sample output)) []
  | concluded {id : EvaluationId} (isOpen : o.status = .open)
    (running : o.evaluation = some (.running id revision samples))
    (defined : o.definition.check check = some definition)
    (inRange : sample < definition.config.samples)
    (accepted : definition.config.accepts output = true)
    (fresh : (samples.received check).contains sample = false)
    (full : complete o.definition (samples.add check sample output) = true) :
    Change digest usage key (.checkFinished key id check revision sample output) o
      (o.conclude id revision (samples.add check sample output))
      [.notice (.evaluationReady key id revision
        (o.judge (combineAll o.definition (samples.add check sample output))).kind)]
  | settled {id : EvaluationId} (isOpen : o.status = .open)
    (ready : o.evaluation = some (.ready id revision results verdict))
    (recorded : o.ledger.settle ⟨revision, results, decision, note⟩ verdict = .ok ledger) :
    Change digest usage key (.settled key id decision note) o (o.settle ledger decision usage)
      [.settled key decision]
  | closed (notClosed : ∀ usage, o.status ≠ .closed usage) :
    Change digest usage key (.closed key) o (o.close usage) [.closed key]
  | reminded (same : (remindBudget used key o).1 = { o with budgetNotified }) :
    Change digest usage key (.usage used) o { o with budgetNotified } [.usageReported]

/-- Every outcome of the reducer on one event. -/
inductive Applied (digest : Canonical F → H) (s : State F H) :
    Event F H → State F H → List (Occurrence H) → Prop
  | refused (refusal : notice.isRefusal = true) :
    Applied digest s event s [.notice notice]
  | created (valid : definition.validate = [])
    (absent : s.objectives[definition.key]? = none) :
    Applied digest s (.definitionChanged definition)
      (s.put definition.key (.create definition s.usage)) [approvalRequired digest definition]
  | changed {key : ObjectiveKey} (found : s.objectives[key]? = some o)
    (change : Change digest s.usage key event o o' occurrences) :
    Applied digest s event (s.put key o') occurrences
  | unapproved {key : ObjectiveKey} (found : s.objectives[key]? = some objective)
      (isOpen : objective.status = .open)
    (missing : objective.isApproved digest = false) :
    Applied digest s (.requested key revision) s [approvalRequired digest objective.definition]
  | delivered :
    Applied digest s (.revisionDelivered revision)
      (deliver digest s revision).1 (deliver digest s revision).2
  | idle : Applied digest s (.hostIdle queueLen) s [.hostIdle queueLen]
  | used :
    Applied digest s (.usage usage) { s with usage } [.usageReported]

theorem Change.of_start {usage : Usage} {key : ObjectiveKey} {o : ObjectiveState F H}
    (asked : event = .requested key revision ∨ event = .revisionDelivered revision)
    (isOpen : o.status = .open) (isApproved : o.isApproved digest = true) :
    Change digest usage key event o (start o revision).1 (start o revision).2 := by
  rcases start_cases o revision with ⟨_, started⟩ | ⟨other, started⟩ <;> rw [started]
  · exact .kept
  · exact .started asked isOpen isApproved other

theorem Applied.ignored (event : Event F H) (reason : IgnoreReason) :
    Applied digest s event s (Objective.ignored reason) :=
  .refused rfl

theorem define_applied (definition : ObjectiveDefinition F) :
    Applied digest s (.definitionChanged definition)
      (define digest s definition).1 (define digest s definition).2 := by
  unfold define
  dsimp only
  split
  · exact .refused rfl
  next valid =>
    replace valid : definition.validate = [] := by simpa using valid
    split
    next absent =>
      have missing : definition.key ∉ s.objectives := by
        simpa only [Bool.not_eq_true', ← ExtTreeMap.contains_iff_mem, Bool.not_eq_true] using absent
      exact .created valid (ExtTreeMap.getElem?_eq_none missing)
    next present =>
      rcases openObjective_cases s definition.key with ⟨_, opened, found, isOpen⟩ |
        ⟨reason, refused⟩
      · rw [opened]
        dsimp only
        split
        next same => exact .changed found (.redefined valid rfl isOpen same)
        next changed => exact .changed found (.restated valid rfl isOpen changed)
      · rw [refused]
        exact .ignored s _ reason

theorem approve_applied (approval : Approval H) : Applied digest s (.approvalGranted key approval)
      (approve digest s key approval).1 (approve digest s key approval).2 := by
  unfold approve
  rcases openObjective_cases s key with ⟨_, opened, found, isOpen⟩ | ⟨reason, refused⟩
  · rw [opened]
    dsimp only
    split
    · exact .ignored s _ _
    next valid => exact .changed found (.approved isOpen (by simpa using valid))
  · rw [refused]
    exact .ignored s _ reason

theorem request_applied (revision : Revision) : Applied digest s (.requested key revision)
      (request digest s key revision).1 (request digest s key revision).2 := by
  unfold request
  rcases openObjective_cases s key with ⟨_, opened, found, isOpen⟩ | ⟨reason, refused⟩
  · rw [opened]
    dsimp only
    split
    next missing => exact .unapproved found isOpen (by simpa using missing)
    next isApproved =>
      exact .changed found (.of_start (.inl rfl) isOpen (by simpa using isApproved))
  · rw [refused]
    exact .ignored s _ reason

theorem finish_applied (evaluation : EvaluationId) (check : CheckId) (revision : Revision)
    (sample : Nat) (output : SampleOutput F) :
    Applied digest s (.checkFinished key evaluation check revision sample output)
      (finish s key evaluation check revision sample output).1
      (finish s key evaluation check revision sample output).2 := by
  unfold finish
  rcases openObjective_cases s key with ⟨objective, opened, found, isOpen⟩ | ⟨reason, refused⟩
  · rw [opened]
    dsimp only
    split
    next id running samples evaluating =>
      split
      · exact .ignored s _ _
      next current =>
        obtain ⟨rfl, rfl⟩ : id = evaluation ∧ running = revision := by
          simpa only [not_or, ne_eq, not_not] using current
        split
        · exact .ignored s _ _
        next definition defined =>
          split
          · exact .ignored s _ _
          next inRange =>
            replace inRange : sample < definition.config.samples := by simpa using inRange
            split
            · exact .ignored s _ _
            next accepted =>
              replace accepted : definition.config.accepts output = true := by simpa using accepted
              split
              next duplicate =>
                -- The entry exists, so creating it again leaves the state as it was.
                rw [show samples.getD check ∅ = samples.received check from rfl,
                  Samples.insert_received duplicate]
                have same : objective.collect id running samples = objective := by
                  rw [ObjectiveState.collect, ← evaluating]
                rw [same, State.put_self found]
                exact .ignored s _ _
              next fresh =>
                replace fresh := eq_false_of_ne_true fresh
                rw [insert_insert]
                split
                next waiting =>
                  rw [Bool.not_eq_true'] at waiting
                  exact .changed found
                    (.collected isOpen evaluating defined inRange accepted fresh waiting)
                next full =>
                  rw [Bool.not_eq_true', Bool.not_eq_false] at full
                  exact .changed found
                    (.concluded isOpen evaluating defined inRange accepted fresh full)
    · exact .ignored s _ _
  · rw [refused]
    exact .ignored s _ reason

theorem settle_applied (evaluation : EvaluationId) (decision : Decision) (note : String) :
    Applied digest s (.settled key evaluation decision note)
      (settle s key evaluation decision note).1 (settle s key evaluation decision note).2 := by
  unfold settle
  rcases openObjective_cases s key with ⟨_, opened, found, isOpen⟩ | ⟨reason, refused⟩
  · rw [opened]
    dsimp only
    split
    next id _ _ _ ready =>
      split
      · exact .ignored s _ _
      next current =>
        obtain rfl : id = evaluation := by simpa using current
        split
        · exact .refused rfl
        next recorded => exact .changed found (.settled isOpen ready recorded)
    · exact .ignored s _ _
  · rw [refused]
    exact .ignored s _ reason

theorem close_applied : Applied digest s (.closed key) (close s key).1 (close s key).2 := by
  unfold close
  split
  · exact .ignored s _ _
  next found =>
    split
    · exact .ignored s _ _
    next isOpen => exact .changed found (.closed (by simp [isOpen]))
    next isDone => exact .changed found (.closed (by simp [isDone]))

/-- The outcomes of `Applied` are all there are. -/
theorem apply_applied (event : Event F H) :
    Applied digest s event (apply digest s event).1 (apply digest s event).2 := by
  cases event with
  | definitionChanged definition => exact define_applied s definition
  | approvalGranted key approval => exact approve_applied s key approval
  | requested key revision => exact request_applied s key revision
  | checkFinished key evaluation check revision sample output =>
    exact finish_applied s key evaluation check revision sample output
  | revisionDelivered => exact .delivered
  | settled key evaluation decision note => exact settle_applied s key evaluation decision note
  | closed key => exact close_applied s key
  | hostIdle => exact .idle
  | usage => exact .used

omit [Scalar F] [DecidableEq H] in
/-- An objective that is stated anew is to be approved again. -/
theorem mem_restated {o : ObjectiveState F H} (member : occurrence ∈
      (if o.approval.isSome then [.notice (.approvalInvalidated definition.key)] else []) ++
        [approvalRequired digest definition]) :
    occurrence = .notice (.approvalInvalidated definition.key) ∨
      occurrence = approvalRequired digest definition := by
  split at member
  · simpa using member
  · exact .inr (by simpa using member)

omit [Scalar F] in
theorem mem_deliver (member : occurrence ∈ (deliver digest s revision).2) :
    ∃ key, occurrence = .evaluationStarted key := by
  simp only [deliver, List.mem_flatMap] at member
  obtain ⟨_, -, started⟩ := member
  exact ⟨_, mem_start started⟩

/-- The reducer reports usage only on a usage event. -/
theorem Applied.usageReported {s s' : State F H} {event : Event F H}
    (applied : Applied digest s event s' occurrences)
    (reported : Occurrence.usageReported ∈ occurrences) : ∃ usage, event = .usage usage := by
  cases applied with
  | used => exact ⟨_, rfl⟩
  | delivered =>
    obtain ⟨_, same⟩ := mem_deliver s reported
    cases same
  | created | unapproved => simp [approvalRequired] at reported
  | refused | idle => simp at reported
  | changed _ change =>
    cases change with
    | reminded => exact ⟨_, rfl⟩
    | restated => rcases mem_restated reported with same | same <;> cases same
    | _ => simp at reported

theorem react_objectives {event : Event F H} (silent : ∀ usage, event ≠ .usage usage) :
    (react digest s event).1.objectives = (apply digest s event).1.objectives := by
  apply fire_objectives
  intro reported
  obtain ⟨usage, same⟩ := (apply_applied s event).usageReported reported
  exact silent usage same

theorem react_usage_objectives : (react digest s (.usage usage)).1.objectives =
      s.objectives.map fun key objective =>
        (remindBudget usage key objective).1 := by
  simp [react, apply, fireOne, remindBudgets]

/-! ## One objective's view of a step -/

/-- What one event can do to the entry of `key`: objectives appear, change and stay. -/
inductive Move (digest : Canonical F → H) (usage : Usage) (key : ObjectiveKey)
    (event : Event F H) : Option (ObjectiveState F H) → Option (ObjectiveState F H) → Prop
  | absent : Move digest usage key event none none
  | created (defined : event = .definitionChanged definition)
    (valid : definition.validate = []) (own : definition.key = key) :
    Move digest usage key event none (some (.create definition usage))
  | changed (change : Change digest usage key event o o' occurrences) :
    Move digest usage key event (some o) (some o')

theorem Move.same (usage : Usage) (key : ObjectiveKey) (event : Event F H)
    (entry : Option (ObjectiveState F H)) : Move digest usage key event entry entry := by
  cases entry with
  | none => exact .absent
  | some => exact .changed .kept

/-- A handler that writes one key moves that key only. -/
theorem Move.put {s : State F H} {written key : ObjectiveKey}
    (move : Move digest s.usage written event s.objectives[written]? (some objective)) :
    Move digest s.usage key event s.objectives[key]?
      (s.put written objective).objectives[key]? := by
  rw [State.put_get]
  split
  next same => rw [same]; exact move
  next => exact .same _ _ _ _

omit [Scalar F] in
theorem deliver_get :
    (deliver digest s revision).1.objectives[key]? =
      (s.objectives[key]?).map fun o =>
        if o.receives digest then (start o revision).1 else o := by
  simp [deliver, ExtTreeMap.getElem?_map]

theorem Applied.move {s s' : State F H} {event : Event F H}
    (applied : Applied digest s event s' occurrences) (key : ObjectiveKey) :
    Move digest s.usage key event s.objectives[key]? s'.objectives[key]? := by
  cases applied with
  | refused | unapproved | idle | used => exact .same _ _ _ _
  | created valid absent => exact .put (by rw [absent]; exact .created rfl valid rfl)
  | changed found change => exact .put (by rw [found]; exact .changed change)
  | delivered =>
    rw [deliver_get]
    cases s.objectives[key]? with
    | none => exact .absent
    | some =>
      simp only [Option.map_some]
      split
      next receives =>
        simp only [ObjectiveState.receives, Bool.and_eq_true, beq_iff_eq] at receives
        exact .changed (.of_start (.inr rfl) receives.1 receives.2)
      next => exact .changed .kept

/-- **One objective's view of a reaction.** -/
theorem react_move (digest : Canonical F → H) (s : State F H) (event : Event F H)
    (key : ObjectiveKey) :
    Move digest s.usage key event s.objectives[key]? (react digest s event).1.objectives[key]? := by
  by_cases usage : ∃ used, event = .usage used
  · obtain ⟨used, rfl⟩ := usage
    rw [react_usage_objectives, ExtTreeMap.getElem?_map]
    cases s.objectives[key]? with
    | none => exact .absent
    | some o =>
      obtain ⟨_, same⟩ := remindBudget_eq key used o
      rw [Option.map_some, same]
      exact .changed (.reminded same)
  · rw [react_objectives s fun used same => usage ⟨used, same⟩]
    exact (apply_applied s event).move key

variable {s key}

/-- A stored objective stays stored. -/
theorem react_changed (digest : Canonical F → H) (event : Event F H)
    (stored : s.objectives[key]? = some o) :
    ∃ o' occurrences, (react digest s event).1.objectives[key]? = some o' ∧
      Change digest s.usage key event o o' occurrences := by
  have move := react_move digest s event key
  rw [stored] at move
  generalize (react digest s event).1.objectives[key]? = entry at move
  cases move with
  | changed change => exact ⟨_, _, rfl, change⟩

/-- What holds of each objective in a state, of each one created and after each change. -/
theorem react_each {P Q : ObjectiveKey → ObjectiveState F H → Prop}
    (created : ∀ {key definition usage}, definition.validate = [] → definition.key = key →
      Q key (.create definition usage))
    (changed : ∀ {key usage event o o' occurrences},
      Change digest usage key event o o' occurrences → P key o → Q key o')
    (each : ∀ (key : ObjectiveKey) o, s.objectives[key]? = some o → P key o) (event : Event F H) :
    ∀ (key : ObjectiveKey) o, (react digest s event).1.objectives[key]? = some o → Q key o := by
  intro key o stored
  have move := react_move digest s event key
  rw [stored] at move
  generalize before : s.objectives[key]? = entry at move
  cases move with
  | created _ valid own => exact created valid own
  | changed change => exact changed change (each key _ before)

end NeigeCalm.Objective
