import NeigeCalm.Objective.Invariant

/-!
# What the host is asked to do

The intents of a reaction.  A refusal is the only intent of its reaction and
leaves the state as it was.  Check runs carry the number that their objective's
counter had, and the counter passes it in the same event, so that over a whole
run no check run is asked for twice.
-/

namespace NeigeCalm.Objective

open Library List ObjectiveState

variable {F H : Type}

/-! ## The intents of the trigger rules -/

section Triggers

variable {id : EvaluationId} {o : ObjectiveState F H}

theorem Budget.exhausted_nodup (budget : Budget) (used : Usage) :
    (budget.exhausted used).Nodup := by
  unfold exhausted
  cases decide (budget.turns ≤ used.turns) <;> cases decide (budget.tokens ≤ used.contextTokens) <;>
    cases decide (budget.wallSecs ≤ used.elapsedSecs) <;> simp

/-- Each limit not yet notified is reported once, and all are notified afterwards. -/
theorem remindLimits_eq (key : ObjectiveKey) (nodup : limits.Nodup) :
    (remindLimits key limits notified : Finset BudgetLimit × List (Intent F H)) =
      (notified ∪ limits.toFinset,
        (limits.filter (· ∉ notified)).map fun limit => .notify (.budgetExhausted key limit)) := by
  unfold remindLimits
  -- the loop's accumulator: what is notified so far, and the reminders so far
  suffices gen : ∀ (notified : Finset BudgetLimit) (intents : List (Intent F H)),
      limits.foldl (fun acc limit =>
        if limit ∈ acc.1 then acc
        else (insert limit acc.1, acc.2 ++ [.notify (.budgetExhausted key limit)]))
          (notified, intents) =
        (notified ∪ limits.toFinset,
          intents ++ (limits.filter (· ∉ notified)).map fun limit =>
            .notify (.budgetExhausted key limit)) by
    simpa using gen notified []
  induction limits with
  | nil => simp
  | cons limit rest ih =>
    obtain ⟨fresh, nodup⟩ := nodup_cons.mp nodup
    intro notified intents
    rw [foldl_cons]
    by_cases known : limit ∈ notified
    · simp only [if_pos known, ih nodup, toFinset_cons, Prod.mk.injEq]
      refine ⟨?_, by simp [known]⟩
      ext other
      by_cases same : other = limit <;> simp [same, known]
    · have others : rest.filter (· ∉ insert limit notified) = rest.filter (· ∉ notified) := by
        refine filter_congr fun other member => ?_
        have different : other ≠ limit := fun same => fresh (same ▸ member)
        simp [different]
      simp only [if_neg known, ih nodup, toFinset_cons, Prod.mk.injEq]
      refine ⟨?_, ?_⟩
      · ext other
        by_cases same : other = limit <;> simp [same]
      · rw [others]
        simp [known]

/-- The limits an open objective has yet to report. -/
def ObjectiveState.unreported (o : ObjectiveState F H) (usage : Usage) : List BudgetLimit :=
  if o.status = .open then
    (o.definition.budget.exhausted (o.used usage)).filter (· ∉ o.budgetNotified)
  else []

theorem remindBudget_eq_unreported (usage : Usage) (key : ObjectiveKey) (o : ObjectiveState F H) :
    (remindBudget usage key o) =
      ({ o with budgetNotified := o.budgetNotified ∪ (o.unreported usage).toFinset },
        (o.unreported usage).map fun limit => .notify (.budgetExhausted key limit)) := by
  unfold remindBudget unreported
  by_cases isOpen : o.status = .open
  · rw [if_neg (not_not.mpr isOpen), if_pos isOpen]
    dsimp only
    rw [remindLimits_eq key (Budget.exhausted_nodup _ _)]
    congr 2
    ext limit
    by_cases known : limit ∈ o.budgetNotified <;> simp [known]
  · have none : o.budgetNotified ∪ [].toFinset = o.budgetNotified := by ext; simp
    rw [if_pos isOpen, if_neg isOpen, none, map_nil]

theorem mem_remindBudgets (member : intent ∈ (remindBudgets s).2) :
    ∃ key limit, intent = .notify (.budgetExhausted key limit) := by
  obtain ⟨⟨key, o⟩, -, reminded⟩ := mem_flatMap.mp member
  simp only [remindBudget_eq_unreported] at reminded
  obtain ⟨limit, -, same⟩ := mem_map.mp reminded
  exact ⟨key, limit, same.symm⟩

/-- The trigger rules make up no refusal of their own. -/
theorem fireOne_refusal (refusal : notice.isRefusal = true)
    (member : .notify notice ∈ (fireOne digest s occurrence).2) : occurrence = .notice notice := by
  cases occurrence with
  | notice =>
    simp only [fireOne, mem_singleton, Intent.notify.injEq] at member
    rw [member]
  | evaluationStarted =>
    simp only [fireOne, runChecks] at member
    split at member
    · cases member
    · split at member
      · simp at member
      · cases member
  | settled =>
    simp only [fireOne, afterSettle] at member
    split at member
    · cases member
    · rcases mem_append.mp member with reached | finished
      · split at reached
        · cases mem_singleton.mp reached
          cases refusal
        · cases reached
      · split at finished
        · cases mem_singleton.mp finished
          cases refusal
        · cases finished
  | closed => cases member
  | hostIdle =>
    simp only [fireOne, compactWhenIdle] at member
    split at member
    · cases member
    · split at member
      · simp at member
      all_goals cases member
  | usageReported =>
    obtain ⟨_, _, same⟩ := mem_remindBudgets member
    cases same
    cases refusal

theorem fire_refusal (refusal : notice.isRefusal = true)
    (member : .notify notice ∈ (fire digest s occurrences).2) : .notice notice ∈ occurrences := by
  induction occurrences generalizing s with
  | nil => cases member
  | cons _ _ ih =>
    rcases mem_append.mp member with here | later
    · rw [fireOne_refusal refusal here]
      exact mem_cons_self
    · exact mem_cons_of_mem _ (ih later)

/-- What a check run is known by: objective, evaluation, check and sample. -/
abbrev RunKey := ObjectiveKey × EvaluationId × CheckId × Nat

/-- The check runs asked for, in order. -/
def runKeys (intents : List (Intent F H)) : List RunKey :=
  intents.filterMap fun
    | .runCheck objective evaluation check _ sample => some (objective, evaluation, check, sample)
    | _ => none

theorem mem_runKeys (member : .runCheck key id check revision sample ∈ intents) :
    (key, id, check, sample) ∈ runKeys intents :=
  mem_filterMap.mpr ⟨_, member, rfl⟩

theorem runKeys_append : runKeys (first ++ second) = runKeys first ++ runKeys second :=
  filterMap_append

theorem runKeys_flatMap {A : Type} (items : List A) (intents : A → List (Intent F H)) :
    runKeys (items.flatMap intents) = items.flatMap fun item => runKeys (intents item) :=
  filterMap_flatMap

/-- Only the start of an evaluation asks for check runs. -/
theorem fireOne_runKeys (s : State F H) (other : ∀ key, occurrence ≠ .evaluationStarted key) :
    runKeys (fireOne digest s occurrence).2 = [] := by
  cases occurrence with
  | evaluationStarted key => exact absurd rfl (other key)
  | notice | closed => rfl
  | settled =>
    simp only [fireOne, afterSettle]
    split
    · rfl
    · rw [runKeys_append]
      split <;> split <;> rfl
  | hostIdle =>
    simp only [fireOne, compactWhenIdle]
    split
    · rfl
    · split <;> rfl
  | usageReported =>
    rw [runKeys, filterMap_eq_nil_iff]
    intro intent member
    obtain ⟨_, _, rfl⟩ := mem_remindBudgets member
    rfl

theorem fire_runKeys (s : State F H) (none : ∀ key, .evaluationStarted key ∉ occurrences) :
    runKeys (fire digest s occurrences).2 = [] := by
  induction occurrences generalizing s with
  | nil => rfl
  | cons _ _ ih =>
    rw [fire, runKeys_append, fireOne_runKeys s fun key same => none key (same ▸ mem_cons_self),
      ih _ fun key member => none key (mem_cons_of_mem _ member)]
    rfl

/-- Starts run their checks one after the other and leave the state alone. -/
theorem fire_started (s : State F H) (keys : List ObjectiveKey) :
    fire digest s (keys.map .evaluationStarted) = (s, keys.flatMap (runChecks s)) := by
  induction keys with
  | nil => rfl
  | cons _ _ ih => simp [fire, fireOne, ih]

/-- The runs of one started evaluation: its number, and each sample once. -/
theorem runKeys_runChecks (stored : s.objectives[key]? = some o)
    (running : o.evaluation = some (.running id revision samples)) :
    runKeys (runChecks s key) = o.definition.checks.flatMap fun check =>
      (range check.config.samples).map fun sample => (key, id, check.id, sample) := by
  simp only [runChecks, stored, running, runKeys, filterMap_flatMap, filterMap_map]
  congr 1
  funext check
  rw [← filterMap_eq_map]
  rfl

theorem mem_runChecks_launch (stored : s.objectives[started]? = some (o.launch launched)) :
    .runCheck key id check revision sample ∈ runChecks s started ↔
      key = started ∧ id = ⟨o.evaluations⟩ ∧ revision = launched ∧
        ∃ found ∈ o.definition.checks, found.id = check ∧ sample < found.config.samples := by
  simp only [runChecks, stored, launch, mem_flatMap, mem_map,
    mem_range, Intent.runCheck.injEq]
  constructor
  · rintro ⟨found, member, _, below, rfl, rfl, rfl, rfl, rfl⟩
    exact ⟨rfl, rfl, rfl, found, member, rfl, below⟩
  · rintro ⟨rfl, rfl, rfl, found, member, rfl, below⟩
    exact ⟨found, member, sample, below, rfl, rfl, rfl, rfl, rfl⟩

theorem mem_runKeys_launch (stored : s.objectives[key]? = some (o.launch revision))
    (member : run ∈ runKeys (runChecks s key)) :
    run.1 = key ∧ run.2.1.sequence = o.evaluations := by
  rw [runKeys_runChecks stored rfl] at member
  simp only [mem_flatMap, mem_map] at member
  obtain ⟨_, -, _, -, rfl⟩ := member
  exact ⟨rfl, rfl⟩

end Triggers

/-! ## Refused events change nothing -/

variable [Scalar F] [DecidableEq H]

variable {s : State F H}

/-- The reducer reports a refusal alone, and with the state as it was. -/
theorem Applied.refusal (applied : Applied digest s event s' occurrences)
    (refusal : notice.isRefusal = true) (member : .notice notice ∈ occurrences) :
    s' = s ∧ occurrences = [.notice notice] := by
  cases applied with
  | refused => exact ⟨rfl, by rw [mem_singleton.mp member]⟩
  | created | unapproved =>
    cases mem_singleton.mp member
    cases refusal
  | delivered =>
    obtain ⟨_, same⟩ := mem_deliver s member
    cases same
  | idle | used => simp at member
  | changed _ change =>
    cases change with
    | restated => rcases mem_restated member with same | same <;> cases same <;> cases refusal
    | concluded =>
      cases mem_singleton.mp member
      cases refusal
    | _ => simp at member

/-- **Refused events change nothing.**  In any state, reachable or not. -/
theorem react_refusal (s : State F H) (event : Event F H) (notice : Notice H)
    (refusal : notice.isRefusal = true) (reported : .notify notice ∈ (react digest s event).2) :
    react digest s event = (s, [.notify notice]) := by
  obtain ⟨unchanged, alone⟩ :=
    (apply_applied s event).refusal refusal (fire_refusal refusal reported)
  simp [react, unchanged, alone, fireOne]

/-- The trial's evaluation runs, with one sample of the review collected. -/
def trialCollecting : State ℚ (Canonical ℚ) :=
  Machine.run (react id) State.default (trialAnswered.take 4)

theorem react_refusal_duplicate :
    let again := .checkFinished trial.key ⟨0⟩ ⟨"review"⟩ ⟨"r1"⟩ 1 (.evaluator ⟨[], ⟨1, 0, 0⟩⟩)
    react id trialCollecting again =
      (trialCollecting, [.notify (.eventIgnored .duplicateSample)]) :=
  react_refusal trialCollecting _ (.eventIgnored .duplicateSample) rfl (by decide +kernel)

/-! ## Check runs -/

omit [DecidableEq H] in
theorem nodup_runKeys_runChecks {id : EvaluationId} (stored : s.objectives[key]? = some o)
    (valid : o.definition.validate = [])
    (running : o.evaluation = some (.running id revision samples)) :
    (runKeys (runChecks s key)).Nodup := by
  rw [runKeys_runChecks stored running, nodup_flatMap]
  refine ⟨fun check _ => nodup_range.map fun a b same => by simpa using same, ?_⟩
  have distinct := ObjectiveDefinition.checks_nodup valid
  rw [nodup_iff_pairwise_ne, pairwise_map] at distinct
  refine distinct.imp fun {one two} different => ?_
  simp only [Function.onFun, disjoint_left, mem_map]
  rintro _ ⟨a, -, rfl⟩ ⟨b, -, same⟩
  exact different (congrArg (·.2.2.1) same).symm

/-- Every objective is stored under its own key, and its definition is valid. -/
def State.Named (s : State F H) : Prop :=
  ∀ (key : ObjectiveKey) (o : ObjectiveState F H), s.objectives[key]? = some o →
    o.definition.key = key ∧ o.definition.validate = []

theorem State.Named.react (named : s.Named) (event : Event F H) :
    (Objective.react digest s event).1.Named := by
  refine react_each (fun valid own => ⟨own, valid⟩) (fun change here => ?_) named event
  cases change with
  | redefined valid own | restated valid own => exact ⟨own, valid⟩
  | _ => exact here

/-- The objectives that a delivered revision starts to evaluate. -/
def launched (digest : Canonical F → H) (s : State F H) (revision : Revision) :
    List ObjectiveKey :=
  (s.objectives.toList.filter fun (_, o) => o.receives digest && !o.evaluates revision).map (·.1)

omit [Scalar F] in
theorem nodup_launched (s : State F H) (revision : Revision) :
    (launched digest s revision).Nodup := by
  refine List.Nodup.sublist (filter_sublist.map _) ?_
  rw [Std.ExtTreeMap.map_fst_toList_eq_keys]
  exact Std.ExtTreeMap.nodup_keys

omit [Scalar F] in
theorem launched_get (member : key ∈ launched digest s revision) :
    ∃ o, s.objectives[key]? = some o ∧
      (deliver digest s revision).1.objectives[key]? = some (o.launch revision) := by
  obtain ⟨⟨_, o⟩, pair, rfl⟩ := mem_map.mp member
  obtain ⟨stored, guards⟩ := mem_filter.mp pair
  rw [Std.ExtTreeMap.mem_toList_iff_getElem?_eq_some] at stored
  simp only [Bool.and_eq_true, Bool.not_eq_true'] at guards
  refine ⟨o, stored, ?_⟩
  rw [deliver_get, stored, Option.map_some, if_pos guards.1, start, if_neg (by simp [guards.2])]

theorem deliver_occurrences (named : s.Named) (revision : Revision) :
    (deliver digest s revision).2 = (launched digest s revision).map .evaluationStarted := by
  have own : ∀ pair ∈ s.objectives.toList, pair.2.definition.key = pair.1 := by
    intro pair member
    exact (named pair.1 pair.2 (Std.ExtTreeMap.mem_toList_iff_getElem?_eq_some.mp member)).1
  simp only [deliver, launched, map_map]
  generalize s.objectives.toList = pairs at own
  induction pairs with
  | nil => rfl
  | cons pair _ ih =>
    have here := own pair mem_cons_self
    have others := ih fun other member => own other (mem_cons_of_mem _ member)
    simp only [map_cons, filter_cons]
    by_cases receives : pair.2.receives digest = true
    · rcases start_cases pair.2 revision with ⟨same, started⟩ | ⟨other, started⟩
      · simp [receives, same, started, others]
      · simp [receives, other, started, others, here]
    · simp [receives, others]

/-- The occurrences of an event are the starts of distinct objectives, each of
which has just launched, or contain no start. -/
theorem Applied.started (named : s.Named) (applied : Applied digest s event s' occurrences) :
    (∃ keys : List ObjectiveKey, occurrences = keys.map .evaluationStarted ∧ keys.Nodup ∧
      ∀ key ∈ keys, ∃ o revision, s.objectives[key]? = some o ∧
        s'.objectives[key]? = some (o.launch revision)) ∨
      ∀ key, .evaluationStarted key ∉ occurrences := by
  cases applied with
  | @delivered revision =>
    refine .inl ⟨_, deliver_occurrences named revision, nodup_launched s revision, ?_⟩
    intro key member
    obtain ⟨o, stored, after⟩ := launched_get member
    exact ⟨o, revision, stored, after⟩
  | @changed o _ _ _ key found change =>
    cases change with
    | started =>
      refine .inl ⟨[key], by simp [(named key o found).1], nodup_singleton _,
        fun other member => ?_⟩
      obtain rfl := mem_singleton.mp member
      exact ⟨o, _, found, State.get_put ..⟩
    | restated =>
      refine .inr fun key member => ?_
      rcases mem_restated member with same | same <;> cases same
    | _ => exact .inr (by simp)
  | created | unapproved => exact .inr (by simp [approvalRequired])
  | refused | idle | used => exact .inr (by simp)

/-- A reaction starts distinct objectives, and asks for the runs of each, or asks
for none. -/
theorem react_starts (digest : Canonical F → H) (named : s.Named) (event : Event F H) :
    (∃ (s' : State F H) (keys : List ObjectiveKey),
      react digest s event = (s', keys.flatMap (runChecks s')) ∧ keys.Nodup ∧
      ∀ key ∈ keys, ∃ o revision, s.objectives[key]? = some o ∧
        s'.objectives[key]? = some (o.launch revision)) ∨
      runKeys (react digest s event).2 = [] := by
  have applied : Applied digest s event _ _ := apply_applied s event
  rcases applied.started named with ⟨keys, starts, nodup, launches⟩ | none
  · exact .inl ⟨_, keys, by rw [react, starts, fire_started], nodup, launches⟩
  · exact .inr (by rw [react, fire_runKeys _ none])

/-- **The check runs of one reaction** are distinct, and each carries the number
that its objective's counter had before and passes now. -/
theorem react_runKeys (digest : Canonical F → H) (named : s.Named) (event : Event F H) :
    (runKeys (react digest s event).2).Nodup ∧
      ∀ run ∈ runKeys (react digest s event).2, ∃ o o',
        s.objectives[run.1]? = some o ∧ run.2.1.sequence = o.evaluations ∧
          (react digest s event).1.objectives[run.1]? = some o' ∧
          o'.evaluations = o.evaluations + 1 := by
  rcases react_starts digest named event with ⟨_, _, fired, nodup, launches⟩ | none
  · rw [fired, runKeys_flatMap]
    refine ⟨nodup_flatMap.mpr ⟨?_, ?_⟩, ?_⟩
    · intro key member
      obtain ⟨o, revision, before, after⟩ := launches key member
      exact nodup_runKeys_runChecks after (named key o before).2 rfl
    · refine nodup.imp_of_mem fun {one two} oneMember twoMember different => ?_
      simp only [Function.onFun, disjoint_left]
      intro run inOne inTwo
      obtain ⟨o, revision, -, after⟩ := launches one oneMember
      obtain ⟨_, _, -, after'⟩ := launches two twoMember
      exact different ((mem_runKeys_launch after inOne).1.symm.trans
        (mem_runKeys_launch after' inTwo).1)
    · intro run member
      obtain ⟨key, keyMember, runMember⟩ := mem_flatMap.mp member
      obtain ⟨o, revision, before, after⟩ := launches key keyMember
      obtain ⟨rfl, sequence⟩ := mem_runKeys_launch after runMember
      exact ⟨o, o.launch revision, before, sequence, after, rfl⟩
  · rw [none]
    exact ⟨nodup_nil, by simp⟩

/-- An evaluation for which a check run is asked has just started, and all its
runs are asked for with it. -/
theorem react_asked (named : s.Named) {id : EvaluationId}
    (asked : .runCheck key id check revision sample ∈ (react digest s event).2) :
    ∃ o, s.objectives[key]? = some o ∧ id = ⟨o.evaluations⟩ ∧
      (react digest s event).1.objectives[key]? = some (o.launch revision) ∧
      ∀ other index, .runCheck key id other revision index ∈ (react digest s event).2 ↔
        ∃ found ∈ o.definition.checks, found.id = other ∧ index < found.config.samples := by
  rcases react_starts digest named event with ⟨_, _, fired, -, launches⟩ | none
  · rw [fired] at asked ⊢
    obtain ⟨started, keyMember, run⟩ := mem_flatMap.mp asked
    obtain ⟨o, _, before, after⟩ := launches started keyMember
    obtain ⟨rfl, rfl, rfl, -⟩ := (mem_runChecks_launch after).mp run
    refine ⟨o, before, rfl, after, fun other index => ⟨fun member => ?_, fun found => ?_⟩⟩
    · obtain ⟨started', keyMember', run'⟩ := mem_flatMap.mp member
      obtain ⟨_, _, before', after'⟩ := launches started' keyMember'
      obtain ⟨rfl, -, -, found⟩ := (mem_runChecks_launch after').mp run'
      cases before'.symm.trans before
      exact found
    · exact mem_flatMap.mpr ⟨key, keyMember, (mem_runChecks_launch after).mpr
        ⟨rfl, rfl, rfl, found⟩⟩
  · exact absurd (mem_runKeys asked) (by rw [none]; exact not_mem_nil)

/-- Over a run the check runs are distinct, and none reuses a number that an
objective had passed before the run. -/
theorem outputs_runKeys (digest : Canonical F → H) (named : s.Named) (events : List (Event F H)) :
    (runKeys (Machine.outputs (react digest) s events)).Nodup ∧
      ∀ run ∈ runKeys (Machine.outputs (react digest) s events),
        ∀ o, s.objectives[run.1]? = some o → o.evaluations ≤ run.2.1.sequence := by
  induction events generalizing s with
  | nil => exact ⟨nodup_nil, by simp [runKeys]⟩
  | cons event _ ih =>
    obtain ⟨nodup, numbers⟩ := react_runKeys digest named event
    obtain ⟨nodupRest, above⟩ := ih (named.react event)
    rw [Machine.outputs_cons, runKeys_append]
    refine ⟨nodup_append'.mpr ⟨nodup, nodupRest, ?_⟩, ?_⟩
    · intro run now later
      obtain ⟨o, o', -, sequence, after, _⟩ := numbers run now
      have := above run later o' after
      omega
    · intro run member o stored
      rcases mem_append.mp member with now | later
      · obtain ⟨_, -, before, sequence, -⟩ := numbers run now
        cases before.symm.trans stored
        exact sequence.ge
      · obtain ⟨o', _, after, change⟩ := react_changed digest event stored
        exact change.evaluations_le.trans (above run later o' after)

end NeigeCalm.Objective
