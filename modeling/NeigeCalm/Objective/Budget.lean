import NeigeCalm.Objective.Intents

/-!
# Budget reminders and frozen usage

Budgets are soft: exhausting a limit reminds the planner once.  An objective remembers the limits
it reported, and a redefinition forgets those the new budget leaves open, so that they are
reported again.  Usage is cumulative for the session and the host may report it in any order; an
objective that is done or closed keeps the usage it had.
-/

namespace NeigeCalm.Objective

open Library List Option Machine

variable {F H : Type}

/-! ## Status and usage -/

/-- Open to done to closed, or open to closed; the usage frozen on the way stays. -/
inductive Status.Advances : Status → Status → Prop
  | refl (status : Status) : Advances status status
  | finish (usage : Usage) : Advances .open (.done usage)
  | abandon (usage : Usage) : Advances .open (.closed usage)
  | close (usage : Usage) : Advances (.done usage) (.closed usage)

theorem Status.Advances.trans {a b c : Status} (first : a.Advances b) (second : b.Advances c) :
    a.Advances c := by
  cases first with
  | refl => exact second
  | finish usage =>
    cases second with
    | refl => exact .finish usage
    | close => exact .abandon usage
  | abandon usage =>
    cases second
    exact .abandon usage
  | close usage =>
    cases second
    exact .close usage

/-- Once an objective is not open, what it used is settled. -/
theorem Status.Advances.used_eq {o o' : ObjectiveState F H} (advances : o.status.Advances o'.status)
    (finished : o.status ≠ .open) (current current' : Usage) :
    o'.used current' = o.used current := by
  unfold ObjectiveState.used
  generalize o.status = status, o'.status = status' at advances finished
  cases advances with
  | refl =>
    cases status with
    | «open» => exact absurd rfl finished
    | done | closed => rfl
  | finish | abandon => exact absurd rfl finished
  | close => rfl

/-! ## Reminders -/

/-- The limits of objective `key` that the intents report as exhausted, in order. -/
def budgetLimits (key : ObjectiveKey) (intents : List (Intent F H)) : List BudgetLimit :=
  intents.filterMap fun
    | .notify (.budgetExhausted objective limit) => if objective = key then some limit else none
    | _ => none

theorem budgetLimits_append :
    budgetLimits key (first ++ second) = budgetLimits key first ++ budgetLimits key second :=
  filterMap_append

theorem budgetLimits_flatMap {A : Type} (key : ObjectiveKey) (items : List A)
    (intents : A → List (Intent F H)) :
    budgetLimits key (items.flatMap intents) =
      items.flatMap fun a => budgetLimits key (intents a) := by
  induction items with
  | nil => rfl
  | cons _ _ ih => rw [flatMap_cons, budgetLimits_append, ih, flatMap_cons]

theorem ObjectiveState.mem_unreported {o : ObjectiveState F H} :
    limit ∈ o.unreported usage ↔ o.status = .open ∧
      limit ∈ o.definition.budget.exhausted (usage.since o.usageAtStart) ∧
      limit ∉ o.budgetNotified := by
  unfold unreported
  by_cases isOpen : o.status = .open
  · simp [isOpen, used]
  · simp [isOpen]

theorem remindBudget_limits (usage : Usage) (key : ObjectiveKey) (o : ObjectiveState F H) :
    budgetLimits key (remindBudget usage key o).2 =
      o.unreported usage := by
  rw [remindBudget_eq_unreported, budgetLimits, filterMap_map]
  simp

theorem remindBudget_notified (usage : Usage) (key : ObjectiveKey) (o : ObjectiveState F H) :
    (remindBudget usage key o).1.budgetNotified =
      o.budgetNotified ∪ (o.unreported usage).toFinset := by
  rw [remindBudget_eq_unreported]

/-- Reminders of one objective name no other. -/
theorem remindBudget_other (usage : Usage) (different : other ≠ key) (o : ObjectiveState F H) :
    budgetLimits key (remindBudget usage other o).2 = [] := by
  rw [remindBudget_eq_unreported, budgetLimits, filterMap_map]
  simp [different]

theorem remindBudgets_limits (s : State F H) (key : ObjectiveKey) :
    budgetLimits key (remindBudgets s).2 =
      (s.objectives[key]?).elim [] (·.unreported s.usage) := by
  have elsewhere : ∀ (other : ObjectiveKey) (o : ObjectiveState F H), other ≠ key →
      budgetLimits key (remindBudget s.usage other o).2 =
        [] := fun other o different => remindBudget_other s.usage different o
  rw [remindBudgets, budgetLimits_flatMap, OrderedMap.flatMap_toList s.objectives elsewhere]
  simp only [remindBudget_limits]

/-- An occurrence that leads to a reminder. -/
def Occurrence.reminds : Occurrence H → Bool
  | .usageReported => true
  | .notice (.budgetExhausted _ _) => true
  | _ => false

theorem fireOne_limits {digest : Canonical F → H} (s : State F H)
    (silent : occurrence.reminds = false) :
    budgetLimits key (fireOne digest s occurrence).2 = [] := by
  cases occurrence with
  | notice notice =>
    cases notice with
    | budgetExhausted => cases silent
    | _ => rfl
  | evaluationStarted =>
    simp only [fireOne, runChecks]
    split
    · rfl
    · split
      · simp [budgetLimits, filterMap_flatMap]
      · rfl
  | settled =>
    simp only [fireOne, afterSettle]
    split
    · rfl
    · rw [budgetLimits_append]
      split <;> split <;> rfl
  | closed => rfl
  | hostIdle =>
    simp only [fireOne, compactWhenIdle]
    split
    · rfl
    · split <;> rfl
  | usageReported => cases silent

theorem fire_limits {digest : Canonical F → H} (s : State F H)
    (silent : ∀ occurrence ∈ occurrences, occurrence.reminds = false) (key : ObjectiveKey) :
    budgetLimits key (fire digest s occurrences).2 = [] := by
  induction occurrences generalizing s with
  | nil => rfl
  | cons _ _ ih =>
    obtain ⟨here, later⟩ := forall_mem_cons.mp silent
    rw [fire, budgetLimits_append, fireOne_limits s here, ih _ later, append_nil]

section Step

variable [Scalar F] [DecidableEq H] {key : ObjectiveKey}
  {event : Event F H} {o o' : ObjectiveState F H}

theorem Change.advances (change : Change digest usage key event o o' occurrences) :
    o.status.Advances o'.status := by
  cases change with
  | @settled _ _ _ _ _ _ _ _ isOpen =>
    simp only [ObjectiveState.settle, isOpen]
    split
    · exact .finish _
    · exact .refl _
  | closed notClosed =>
    cases status : o.status with
    | «open» => exact .abandon _
    | done used =>
      simp only [ObjectiveState.close, ObjectiveState.used, status]
      exact .close used
    | closed used => exact absurd status (notClosed used)
  | _ => exact .refl _

theorem Applied.silent (applied : Applied digest s event s' occurrences)
    (other : ∀ used, event ≠ .usage used) :
    ∀ occurrence ∈ occurrences, occurrence.reminds = false := by
  intro occurrence member
  cases applied with
  | used => exact absurd rfl (other _)
  | @refused _ notice refusal =>
    obtain rfl := mem_singleton.mp member
    cases notice with
    | budgetExhausted => cases refusal
    | _ => rfl
  | delivered =>
    obtain ⟨_, rfl⟩ := mem_deliver s member
    rfl
  | created | unapproved | idle =>
    obtain rfl := mem_singleton.mp member
    rfl
  | changed _ change =>
    cases change with
    | reminded => exact absurd rfl (other _)
    | restated => rcases mem_restated member with rfl | rfl <;> rfl
    | started | concluded | settled | closed =>
      obtain rfl := mem_singleton.mp member
      rfl
    | _ => cases member

/-- The limits one reaction reports: only a usage event does, and then each exhausted limit that
was not reported yet. -/
theorem react_limits (digest : Canonical F → H) (s : State F H) (event : Event F H)
    (key : ObjectiveKey) :
    budgetLimits key (react digest s event).2 =
      match event with
      | .usage used => (s.objectives[key]?).elim [] (·.unreported used)
      | _ => [] := by
  by_cases isUsage : ∃ used, event = .usage used
  · obtain ⟨used, rfl⟩ := isUsage
    simpa [react, apply, fireOne] using remindBudgets_limits { s with usage := used } key
  · have other : ∀ used, event ≠ .usage used := fun used same => isUsage ⟨used, same⟩
    rw [react, fire_limits _ ((apply_applied s event).silent other)]
    split
    · exact absurd rfl (other _)
    · rfl

/-- What was reported stays reported, unless the objective is redefined. -/
theorem Change.notified (change : Change digest usage key event o o' occurrences)
    (undisturbed : ∀ definition, event = .definitionChanged definition → definition.key ≠ key) :
    o.budgetNotified ⊆ o'.budgetNotified := by
  cases change with
  | redefined valid own | restated valid own => exact absurd own (undisturbed _ rfl)
  | reminded same =>
    rw [← congrArg ObjectiveState.budgetNotified same, remindBudget_notified]
    exact Finset.subset_union_left
  | _ => exact subset_refl _

theorem react_usage_get :
    (react digest s (.usage used)).1.objectives[key]? =
      (s.objectives[key]?).map fun o =>
        (remindBudget used key o : ObjectiveState F H × List (Intent F H)).1 := by
  rw [react_usage_objectives, Std.ExtTreeMap.getElem?_map]

/-- The objective stored under `key` reported `limit` as exhausted. -/
def State.Notified (s : State F H) (key : ObjectiveKey) (limit : BudgetLimit) : Prop :=
  ∃ o, s.objectives[key]? = some o ∧ limit ∈ o.budgetNotified

theorem State.Notified.react (notified : s.Notified key limit)
    (undisturbed : ∀ definition, event = .definitionChanged definition → definition.key ≠ key) :
    (react digest s event).1.Notified key limit := by
  obtain ⟨o, stored, member⟩ := notified
  obtain ⟨o', _, after, change⟩ := react_changed digest event stored
  exact ⟨o', after, change.notified undisturbed member⟩

omit [Scalar F] [DecidableEq H] in
theorem ObjectiveState.unreported_nodup (o : ObjectiveState F H) (usage : Usage) :
    (o.unreported usage).Nodup := by
  unfold unreported
  split
  · exact (Budget.exhausted_nodup _ _).filter _
  · exact nodup_nil

/-- A limit reported by a reaction was not reported before and is afterwards. -/
theorem react_reports {s : State F H} (member : limit ∈ budgetLimits key (react digest s event).2) :
    ¬s.Notified key limit ∧ (react digest s event).1.Notified key limit := by
  rw [react_limits] at member
  split at member
  · rename_i used
    cases stored : s.objectives[key]? with
    | none => simp [stored] at member
    | some =>
      rw [stored, elim_some] at member
      constructor
      · rintro ⟨_, storedOther, known⟩
        cases stored.symm.trans storedOther
        exact (ObjectiveState.mem_unreported.mp member).2.2 known
      · refine ⟨_, by rw [react_usage_get, stored, map_some], ?_⟩
        rw [remindBudget_notified]
        exact Finset.mem_union_right _ (mem_toFinset.mpr member)
  · cases member

theorem react_limits_nodup (digest : Canonical F → H) (s : State F H) (event : Event F H)
    (key : ObjectiveKey) : (budgetLimits key (react digest s event).2).Nodup := by
  rw [react_limits]
  split
  · cases s.objectives[key]? with
    | none => exact nodup_nil
    | some o => exact o.unreported_nodup _
  · exact nodup_nil

/-! ## Whole runs -/

/-- A stretch without a redefinition of the objective reports each limit once at most, and none
that was reported before it. -/
theorem outputs_limits (digest : Canonical F → H) (s : State F H) (events : List (Event F H))
    (key : ObjectiveKey)
    (undisturbed : ∀ definition, .definitionChanged definition ∈ events → definition.key ≠ key) :
    (budgetLimits key (outputs (react digest) s events)).Nodup ∧
      ∀ limit ∈ budgetLimits key (outputs (react digest) s events),
        ¬s.Notified key limit := by
  induction events generalizing s with
  | nil => exact ⟨nodup_nil, nofun⟩
  | cons event _ ih =>
    have here : ∀ definition, event = .definitionChanged definition → definition.key ≠ key :=
      fun definition same => undisturbed definition (same ▸ mem_cons_self)
    obtain ⟨nodup, fresh⟩ := ih (react digest s event).1
      fun definition member => undisturbed definition (mem_cons_of_mem _ member)
    rw [outputs_cons, budgetLimits_append]
    constructor
    · refine nodup_append.mpr ⟨react_limits_nodup digest s event key, nodup, ?_⟩
      rintro limit first _ second rfl
      exact fresh limit second (react_reports first).2
    · intro limit member known
      rcases mem_append.mp member with first | second
      · exact (react_reports first).1 known
      · exact fresh limit second (known.react here)

theorem run_advances (digest : Canonical F → H) (events : List (Event F H)) {s : State F H}
    (stored : s.objectives[key]? = some o) :
    ∃ o', (run (react digest) s events).objectives[key]? = some o' ∧
      o.status.Advances o'.status :=
  run_related (R := (·.status.Advances ·.status)) (fun _ => .refl _)
    (fun change advances => change.advances.trans advances) events stored

/-- A definition that is accepted forgets exactly the limits that its budget leaves open; any
other changes nothing. -/
theorem react_rearms (digest : Canonical F → H) (stored : s.objectives[definition.key]? = some o) :
    ∃ o', (react digest s (.definitionChanged definition)).1.objectives[definition.key]? = some o' ∧
      if definition.validate = [] ∧ o.status = .open then
        o'.definition = definition ∧ ∀ limit, limit ∈ o'.budgetNotified ↔
          limit ∈ o.budgetNotified ∧ limit ∈ definition.budget.exhausted (o.used s.usage)
      else o' = o := by
  have present : s.objectives.contains definition.key = true := by
    rw [Std.ExtTreeMap.contains_iff_mem, Std.ExtTreeMap.mem_iff_isSome_getElem?, stored]
    rfl
  rw [react_objectives s (by simp)]
  simp only [apply, define, present]
  by_cases valid : definition.validate = []
  · rcases openObjective_cases s definition.key with ⟨_, opened, storedFound, isOpen⟩ |
      ⟨reason, refused⟩
    · cases stored.symm.trans storedFound
      rw [opened]
      simp only [valid, isOpen, ne_eq, not_true, if_false, Bool.not_true, Bool.false_eq_true,
        true_and,
        if_true]
      split <;> refine ⟨_, State.get_put .., rfl, fun limit => ?_⟩ <;>
        simp [ObjectiveState.restate, ObjectiveState.redefine]
    · have notOpen : o.status ≠ .open := by
        intro isOpen
        simp [openObjective, stored, isOpen] at refused
      simp [refused, valid, notOpen, stored]
  · simp [valid, stored]

/-- **Budget reminders and frozen usage.**  From any state: over a run a status moves forward
only, and usage is frozen once the objective is not open; after a usage event an open objective
has reported every limit it exhausts, and the event reports those it had not; a stretch without a
redefinition reports each limit once at most; and a redefinition re-arms exactly the limits that
the new budget does not exhaust. -/
theorem budget_reminders (digest : Canonical F → H) (s : State F H) (key : ObjectiveKey) :
    (∀ o events, s.objectives[key]? = some o →
      ∃ o', (run (react digest) s events).objectives[key]? = some o' ∧
        o.status.Advances o'.status ∧
        (o.status ≠ .open → ∀ current current', o'.used current' = o.used current)) ∧
    (∀ used o', (react digest s (.usage used)).1.objectives[key]? = some o' → o'.status = .open →
      ∀ limit ∈ o'.definition.budget.exhausted (used.since o'.usageAtStart),
        limit ∈ o'.budgetNotified) ∧
    (∀ used limit, limit ∈ budgetLimits key (react digest s (.usage used)).2 ↔
      ∃ o, s.objectives[key]? = some o ∧ o.status = .open ∧
        limit ∈ o.definition.budget.exhausted (used.since o.usageAtStart) ∧
        limit ∉ o.budgetNotified) ∧
    (∀ events,
      (∀ definition, .definitionChanged definition ∈ events → definition.key ≠ key) →
        (budgetLimits key (outputs (react digest) s events)).Nodup) ∧
    ∀ definition o, definition.key = key → s.objectives[key]? = some o →
      ∃ o', (react digest s (.definitionChanged definition)).1.objectives[key]? = some o' ∧
        if definition.validate = [] ∧ o.status = .open then
          o'.definition = definition ∧ ∀ limit, limit ∈ o'.budgetNotified ↔
            limit ∈ o.budgetNotified ∧ limit ∈ definition.budget.exhausted (o.used s.usage)
        else o' = o := by
  refine ⟨?_, ?_, ?_, ?_, ?_⟩
  · intro o events stored
    obtain ⟨o', stored', advances⟩ := run_advances digest events stored
    exact ⟨o', stored', advances, advances.used_eq⟩
  · intro used o' stored' isOpen limit exhausted
    rw [react_usage_get] at stored'
    obtain ⟨o, stored, rfl⟩ := map_eq_some_iff.mp stored'
    rw [remindBudget_notified, Finset.mem_union, List.mem_toFinset]
    obtain ⟨_, same⟩ := remindBudget_eq key used o
    rw [same] at isOpen exhausted
    by_cases known : limit ∈ o.budgetNotified
    · exact .inl known
    · exact .inr (ObjectiveState.mem_unreported.mpr ⟨isOpen, exhausted, known⟩)
  · intro used limit
    rw [react_limits]
    cases s.objectives[key]? with
    | none => simp
    | some => simp [ObjectiveState.mem_unreported]
  · exact fun events undisturbed => (outputs_limits digest s events key undisturbed).1
  · rintro _ _ rfl stored
    exact react_rearms digest stored

end Step

end NeigeCalm.Objective
