import NeigeCalm.Library.Machine
import NeigeCalm.Objective.Transition

/-!
# The invariant of every stored objective

`ObjectiveState.Sound` is what holds of each objective in every state the engine
reaches: definition, approval, evaluation and verdict agree with one another.
`ObjectiveState.Comparable` adds that every stored result is of the kind of its
check, so that no verdict is undecided by kind.  Both are proved from `Change`,
one case per thing that can happen to an objective, and lifted to runs by the
rule of `Library.Machine`.

The hash of a standard is taken to be injective wherever a redefinition that
keeps the hash must keep the checks.
-/

namespace NeigeCalm.Objective

open Library List Std Machine OrderedMap ObjectiveState

variable {F H : Type}

/-! ## Samples and results that fit a definition -/

/-- Samples are held only for checks of the definition, only at indices the
check takes and only of outputs it accepts. -/
def SamplesFit (definition : ObjectiveDefinition F) (samples : Samples F) : Prop :=
  ∀ id received, samples[id]? = some received →
    ∃ check, definition.check id = some check ∧
      ∀ index output, received[index]? = some output →
        index < check.config.samples ∧ check.config.accepts output = true

/-- Some check still lacks a sample. -/
def Lacks (definition : ObjectiveDefinition F) (samples : Samples F) : Prop :=
  ∃ check ∈ definition.checks, ∃ index < check.config.samples,
    index ∉ samples.received check.id

/-- The results are those of exactly the definition's checks. -/
def ResultsCover (definition : ObjectiveDefinition F) (results : Results F) : Prop :=
  ∀ id, id ∈ results ↔ ∃ check ∈ definition.checks, check.id = id

/-- Each result belongs to a check of the definition and is of its kind. -/
def ResultsFit (definition : ObjectiveDefinition F) (results : Results F) : Prop :=
  ∀ id output, results[id]? = some output →
    ∃ check, definition.check id = some check ∧ output.kind = check.config.kind

theorem SamplesFit.empty (definition : ObjectiveDefinition F) : SamplesFit definition ∅ := by
  intro id received found
  simp at found

variable {definition : ObjectiveDefinition F}

/-- Collecting an accepted sample in range keeps the fit. -/
theorem SamplesFit.add (fit : SamplesFit definition samples) {id : CheckId}
    {output : SampleOutput F} (defined : definition.check id = some check)
    (inRange : sample < check.config.samples) (accepted : check.config.accepts output = true) :
    SamplesFit definition (samples.add id sample output) := by
  intro other received found
  rw [Samples.getElem?_add] at found
  split at found
  next same =>
    subst same
    cases found
    refine ⟨check, defined, fun index value stored => ?_⟩
    rw [get_insert] at stored
    split at stored
    next here =>
      cases stored
      exact ⟨here ▸ inRange, accepted⟩
    next elsewhere =>
      rw [Samples.received_eq] at stored
      cases before : samples[other]? with
      | none => simp [before] at stored
      | some received =>
        rw [before, Option.getD_some] at stored
        obtain ⟨_, defined', inside⟩ := fit other received before
        cases defined'.symm.trans defined
        exact inside index value stored
  next different => exact fit other received found

section Valid

variable [Scalar F] {samples : Samples F}

/-- What is received for a check fits that check. -/
theorem SamplesFit.received (fit : SamplesFit definition samples) (valid : definition.validate = [])
    (member : check ∈ definition.checks)
    (stored : (samples.received check.id)[index]? = some output) :
    index < check.config.samples ∧ check.config.accepts output = true := by
  rw [Samples.received_eq] at stored
  cases found : samples[check.id]? with
  | none => simp [found] at stored
  | some received =>
    rw [found, Option.getD_some] at stored
    obtain ⟨_, defined, inside⟩ := fit check.id received found
    have own := ObjectiveDefinition.check_of_mem valid member
    cases defined.symm.trans own
    exact inside index output stored

theorem SamplesFit.received_lt (fit : SamplesFit definition samples)
    (valid : definition.validate = []) (member : check ∈ definition.checks)
    (present : index ∈ samples.received check.id) : index < check.config.samples := by
  obtain ⟨_, stored⟩ := Option.isSome_iff_exists.mp (ExtTreeMap.mem_iff_isSome_getElem?.mp present)
  exact (fit.received valid member stored).1

omit [Scalar F] in
theorem complete_eq_true_iff_size :
    complete definition samples = true ↔
      ∀ check ∈ definition.checks, (samples.received check.id).size = check.config.samples := by
  have size : ∀ id, ((samples[id]?).map (·.size)).getD 0 = (samples.received id).size := by
    intro id
    rw [Samples.received_eq]
    cases samples[id]? <;> simp
  simp [complete, all_eq_true, size]

/-- The completion test counts samples; for samples that fit it says that no
check lacks one. -/
theorem complete_iff_not_lacks (fit : SamplesFit definition samples)
    (valid : definition.validate = []) :
    complete definition samples = true ↔ ¬ Lacks definition samples := by
  rw [complete_eq_true_iff_size]
  unfold Lacks
  push Not
  refine forall₂_congr fun check member => ?_
  exact size_eq_iff_full fun index present => fit.received_lt valid member present

theorem lacks_of_not_complete (fit : SamplesFit definition samples)
    (valid : definition.validate = []) (waiting : complete definition samples = false) :
    Lacks definition samples := by
  by_contra full
  cases ((complete_iff_not_lacks fit valid).mpr full).symm.trans waiting

/-- A new evaluation lacks samples: there is a check and it takes one. -/
theorem Lacks.of_empty (valid : definition.validate = []) : Lacks definition (∅) := by
  obtain ⟨check, member⟩ := exists_mem_of_ne_nil _ (definition.checks_ne_nil valid)
  refine ⟨check, member, 0, definition.samples_pos valid member, ?_⟩
  simp [Samples.received_eq]

/-! ## Combining a complete evaluation -/

/-- One check's pair of id and combined result, if its samples combine. -/
def combineOne (samples : Samples F) (check : CheckDefinition F) :
    Option (CheckId × CheckOutput F) := do
  let received ← samples[check.id]?
  let output ← check.config.combine (received.toList.map (·.2))
  return (check.id, output)

omit [Scalar F] in
theorem combineOne_eq_some (combined : combineOne samples check = some pair) :
    pair.1 = check.id ∧ ∃ received, samples[check.id]? = some received ∧
      check.config.combine (received.toList.map (·.2)) = some pair.2 := by
  simp only [combineOne, Option.bind_eq_bind, Option.bind_eq_some_iff, Option.pure_def,
    Option.some.injEq] at combined
  obtain ⟨received, found, _, result, rfl⟩ := combined
  exact ⟨rfl, received, found, result⟩

omit [Scalar F] in
theorem nodup_filterMap_combineOne (samples : Samples F) {checks : List (CheckDefinition F)}
    (nodup : (checks.map (·.id)).Nodup) :
    ((checks.filterMap (combineOne samples)).map Prod.fst).Nodup := by
  refine List.Nodup.sublist ?_ nodup
  clear nodup
  induction checks with
  | nil => exact List.Sublist.slnil
  | cons check _ ih =>
    cases combined : combineOne samples check with
    | none => simpa [combined] using ih.cons check.id
    | some =>
      have own := (combineOne_eq_some combined).1
      simpa [combined, own] using ih.cons_cons check.id

/-- A result is stored under an id exactly when the samples of a check combine to it. -/
theorem combineAll_get (valid : definition.validate = []) {id : CheckId} :
    (combineAll definition samples)[id]? = some output ↔
      ∃ check ∈ definition.checks, combineOne samples check = some (id, output) := by
  have nodup := nodup_filterMap_combineOne samples (ObjectiveDefinition.checks_nodup valid)
  rw [show combineAll definition samples =
    ExtTreeMap.ofList (definition.checks.filterMap (combineOne samples)) from rfl,
    get_ofList_iff nodup, mem_filterMap]

/-- Counts and kinds were checked on arrival, so every check combines. -/
theorem combineAll_complete (fit : SamplesFit definition samples) (valid : definition.validate = [])
    (full : complete definition samples = true) (member : check ∈ definition.checks) :
    ∃ output, (combineAll definition samples)[check.id]? = some output ∧
      output.kind = check.config.kind := by
  have size := complete_eq_true_iff_size.mp full check member
  have positive := definition.samples_pos valid member
  cases found : samples[check.id]? with
  | none =>
    rw [Samples.received_eq, found] at size
    simp at size
    omega
  | some received =>
    have here : samples.received check.id = received := by rw [Samples.received_eq, found]; rfl
    rw [here] at size
    have accepted : ∀ sample ∈ received.toList.map (·.2), check.config.accepts sample = true := by
      intro sample present
      obtain ⟨_, pair, rfl⟩ := mem_map.mp present
      rw [ExtTreeMap.mem_toList_iff_getElem?_eq_some, ← here] at pair
      exact (fit.received valid member pair).2
    obtain ⟨output, combined, kind⟩ := CheckConfig.combine_of_accepts (by simpa using size) accepted
    exact ⟨output, (combineAll_get valid).mpr ⟨check, member,
      by simp [combineOne, found, combined]⟩,
      kind⟩

theorem combineAll_cover (fit : SamplesFit definition samples)
    (valid : definition.validate = []) (full : complete definition samples = true) :
    ResultsCover definition (combineAll definition samples) := by
  intro id
  constructor
  · intro present
    obtain ⟨_, stored⟩ :=
      Option.isSome_iff_exists.mp (ExtTreeMap.mem_iff_isSome_getElem?.mp present)
    obtain ⟨check, member, combined⟩ := (combineAll_get valid).mp stored
    exact ⟨check, member, (combineOne_eq_some combined).1.symm⟩
  · rintro ⟨_, member, rfl⟩
    obtain ⟨_, stored, -⟩ := combineAll_complete fit valid full member
    exact ExtTreeMap.mem_iff_isSome_getElem?.mpr (by rw [stored]; rfl)

theorem combineAll_fit (fit : SamplesFit definition samples)
    (valid : definition.validate = []) (full : complete definition samples = true) :
    ResultsFit definition (combineAll definition samples) := by
  intro id output stored
  obtain ⟨check, member, combined⟩ := (combineAll_get valid).mp stored
  obtain rfl : id = check.id := (combineOne_eq_some combined).1
  obtain ⟨_, found, kind⟩ := combineAll_complete fit valid full member
  cases found.symm.trans stored
  exact ⟨check, ObjectiveDefinition.check_of_mem valid member, kind⟩

end Valid

/-! ## The invariant -/

variable [Scalar F] [DecidableEq H]

/-- What holds of the objective stored under `key` in every reachable state. -/
structure ObjectiveState.Sound (digest : Canonical F → H) (key : ObjectiveKey)
    (o : ObjectiveState F H) : Prop where
  own : o.definition.key = key
  valid : o.definition.validate = []
  /-- A stored approval is valid for the current definition. -/
  approved : o.approval.isSome = true → o.isApproved digest = true
  /-- Only an open, approved objective is evaluated. -/
  active : o.evaluation.isSome = true → o.status = .open ∧ o.isApproved digest = true
  /-- A running evaluation holds fitting samples and is never complete. -/
  running : ∀ id revision samples, o.evaluation = some (.running id revision samples) →
    SamplesFit o.definition samples ∧ Lacks o.definition samples
  /-- A ready evaluation's verdict is that of the current definition and baseline. -/
  ready : ∀ id revision results verdict,
    o.evaluation = some (.ready id revision results verdict) →
      ResultsCover o.definition results ∧
        verdict = keepable o.definition (o.ledger.baselineResults.getD ∅) results
  numbered : ∀ evaluation, o.evaluation = some evaluation → evaluation.id.sequence < o.evaluations

variable {key : ObjectiveKey} {o o' : ObjectiveState F H}

/-- Whatever ends an evaluation only has to keep the approval valid. -/
theorem ObjectiveState.Sound.of_idle (own : o.definition.key = key)
    (valid : o.definition.validate = [])
    (approved : o.approval.isSome = true → o.isApproved digest = true)
    (idle : o.evaluation = none) : o.Sound digest key where
  own := own
  valid := valid
  approved := approved
  active := by simp [idle]
  running := by simp [idle]
  ready := by simp [idle]
  numbered := by simp [idle]

theorem ObjectiveState.Sound.create (valid : definition.validate = [])
    (own : definition.key = key) :
    (ObjectiveState.create definition usage : ObjectiveState F H).Sound digest key :=
  .of_idle own valid (by simp [ObjectiveState.create]) rfl

/-- A redefinition of an equal hash has an equal standard, so nothing judged
under the old one is stale. -/
theorem ObjectiveState.Sound.redefine (injective : Function.Injective digest)
    (sound : o.Sound digest key) (valid : definition.validate = []) (own : definition.key = key)
    (same : standardHash digest o.definition = standardHash digest definition) :
    (o.redefine definition usage).Sound digest key := by
  obtain ⟨-, sameMode, sameChecks, -⟩ := standard_eq_of_hash injective same
  have approval : (o.redefine definition usage).isApproved digest = o.isApproved digest := by
    simp [isApproved, ObjectiveState.redefine, Approval.isValidFor, same]
  have check : ∀ id, definition.check id = o.definition.check id := by
    intro id
    simp [ObjectiveDefinition.check, sameChecks]
  refine ⟨own, valid, ?_, ?_, ?_, ?_, sound.numbered⟩
  · rw [approval]
    exact sound.approved
  · rw [approval]
    exact sound.active
  · intro id revision samples running
    obtain ⟨fit, lacks⟩ := sound.running id revision samples running
    refine ⟨?_, ?_⟩
    · simpa only [SamplesFit, ObjectiveState.redefine, check] using fit
    · simpa only [Lacks, ObjectiveState.redefine, ← sameChecks] using lacks
  · intro id revision results verdict ready
    obtain ⟨cover, judged⟩ := sound.ready id revision results verdict ready
    refine ⟨?_, ?_⟩
    · simpa only [ResultsCover, ObjectiveState.redefine, ← sameChecks] using cover
    · simpa only [keepable, ObjectiveState.redefine, ← sameChecks, ← sameMode] using judged

/-- Starting an evaluation takes the next number and has no samples yet. -/
theorem ObjectiveState.Sound.launch (sound : o.Sound digest key) (revision : Revision)
    (isOpen : o.status = .open) (isApproved : o.isApproved digest = true) :
    (o.launch revision).Sound digest key where
  own := sound.own
  valid := sound.valid
  approved := sound.approved
  active := fun _ => ⟨isOpen, isApproved⟩
  running := by
    intro id started samples running
    simp only [ObjectiveState.launch, Option.some.injEq, Evaluation.running.injEq] at running
    obtain ⟨-, -, rfl⟩ := running
    exact ⟨.empty _, .of_empty sound.valid⟩
  ready := by simp [ObjectiveState.launch]
  numbered := by simp [ObjectiveState.launch, Evaluation.id]

/-- **What one event preserves of one objective.** -/
theorem Change.sound (injective : Function.Injective digest)
    (change : Change digest usage key event o o' occurrences) (sound : o.Sound digest key) :
    o'.Sound digest key := by
  cases change with
  | kept => exact sound
  | redefined valid own _ same => exact sound.redefine injective valid own same
  | restated valid own =>
    exact .of_idle own valid (by simp [restate]) rfl
  | @approved approval _ isOpen valid =>
    have isApproved : ({ o with approval := some approval }).isApproved digest = true := by
      simpa [isApproved] using valid
    exact ⟨sound.own, sound.valid, fun _ => isApproved, fun _ => ⟨isOpen, isApproved⟩,
      sound.running, sound.ready, sound.numbered⟩
  | started _ isOpen isApproved => exact sound.launch _ isOpen isApproved
  | @collected _ _ _ revision _ _ samples id _ running defined inRange accepted _ waiting =>
    have active := sound.active (by rw [running]; rfl)
    have fit := (sound.running id revision samples running).1.add defined inRange accepted
    refine ⟨sound.own, sound.valid, sound.approved, fun _ => active, ?_, ?_, ?_⟩
    · intro id' revision' samples' running'
      simp only [collect, Option.some.injEq, Evaluation.running.injEq] at running'
      obtain ⟨-, -, rfl⟩ := running'
      exact ⟨fit, lacks_of_not_complete fit sound.valid waiting⟩
    · simp [collect]
    · intro evaluation stored
      cases stored
      exact sound.numbered (.running id revision samples) running
  | @concluded _ _ _ revision _ _ samples id _ running defined inRange accepted _ full =>
    have active := sound.active (by rw [running]; rfl)
    have fit := (sound.running id revision samples running).1.add defined inRange accepted
    refine ⟨sound.own, sound.valid, sound.approved, fun _ => active, ?_, ?_, ?_⟩
    · simp [conclude]
    · intro id' revision' results' verdict' ready'
      simp only [conclude, Option.some.injEq, Evaluation.ready.injEq] at ready'
      obtain ⟨-, -, rfl, rfl⟩ := ready'
      exact ⟨combineAll_cover fit sound.valid full, rfl⟩
    · intro evaluation stored
      cases stored
      exact sound.numbered (.running id revision samples) running
  | settled =>
    exact .of_idle sound.own sound.valid sound.approved rfl
  | closed => exact .of_idle sound.own sound.valid sound.approved rfl
  | reminded =>
    exact ⟨sound.own, sound.valid, sound.approved, sound.active, sound.running, sound.ready,
      sound.numbered⟩

/-! ## Whole states -/

/-- Every stored objective is sound. -/
def State.Sound (digest : Canonical F → H) (s : State F H) : Prop :=
  ∀ (key : ObjectiveKey) (o : ObjectiveState F H),
    s.objectives[key]? = some o → o.Sound digest key

theorem State.Sound.default : (State.default : State F H).Sound digest := by
  intro key o stored
  simp [State.default] at stored

theorem State.Sound.react (injective : Function.Injective digest) (sound : s.Sound digest)
    (event : Event F H) : (react digest s event).1.Sound digest := by
  refine react_each (fun valid own => ?_) (fun change here => ?_) sound event
  · exact .create valid own
  · exact change.sound injective here

theorem State.Sound.run (injective : Function.Injective digest) (sound : s.Sound digest)
    (events : List (Event F H)) : (run (Objective.react digest) s events).Sound digest :=
  run_preserves (State.Sound digest)
    (fun _ event sound => State.Sound.react injective sound event) sound events

/-! ## Objectives stay, and their evaluation numbers only grow -/

theorem Change.evaluations_le (change : Change digest usage key event o o' occurrences) :
    o.evaluations ≤ o'.evaluations := by
  cases change with
  | started => exact Nat.le_succ _
  | _ => exact Nat.le_refl _

theorem Change.evaluations_le_succ (change : Change digest usage key event o o' occurrences) :
    o'.evaluations ≤ o.evaluations + 1 := by
  cases change with
  | started => exact Nat.le_refl _
  | _ => exact Nat.le_succ _

/-- What holds of an objective and itself and is passed on by each change holds over a run. -/
theorem run_related {R : ObjectiveState F H → ObjectiveState F H → Prop} (refl : ∀ o, R o o)
    (step : ∀ {usage event o o' occurrences last}, Change digest usage key event o o' occurrences →
      R o' last → R o last)
    (events : List (Event F H)) (stored : s.objectives[key]? = some o) :
    ∃ o', (run (react digest) s events).objectives[key]? = some o' ∧ R o o' := by
  induction events generalizing s o with
  | nil => exact ⟨o, stored, refl o⟩
  | cons event _ ih =>
    obtain ⟨_, _, next, change⟩ := react_changed digest event stored
    obtain ⟨last, storedLast, related⟩ := ih next
    exact ⟨last, storedLast, step change related⟩

theorem run_evaluations_le (digest : Canonical F → H) (events : List (Event F H))
    (stored : s.objectives[key]? = some o) :
    ∃ o', (run (react digest) s events).objectives[key]? = some o' ∧
      o.evaluations ≤ o'.evaluations :=
  run_related (R := (·.evaluations ≤ ·.evaluations)) (fun _ => Nat.le_refl _)
    (fun change le => change.evaluations_le.trans le) events stored

/-- **Engine state invariant.**  After any run from the default state every
objective is sound, and its counter is above every evaluation id that was ever
stored for it on the way. -/
theorem run_sound (injective : Function.Injective digest) (events : List (Event F H))
    (stored : (run (react digest) State.default events).objectives[key]? = some o) :
    o.Sound digest key ∧
      ∀ earlier later, events = earlier ++ later → ∀ o₀ evaluation,
        (run (react digest) State.default earlier).objectives[key]? = some o₀ →
        o₀.evaluation = some evaluation → evaluation.id.sequence < o.evaluations := by
  refine ⟨State.Sound.default.run injective events key o stored, ?_⟩
  rintro earlier later rfl o₀ evaluation storedThen evaluating
  have below :=
    (State.Sound.default.run injective earlier key o₀ storedThen).numbered evaluation evaluating
  rw [run_append] at stored
  obtain ⟨_, storedNow, le⟩ := run_evaluations_le digest later storedThen
  cases storedNow.symm.trans stored
  exact below.trans_le le

/-! ## A small run

One objective with a goal and a sampled ratchet, from its definition to the end
of its first evaluation.  It instantiates the results here and in later modules;
numbers are exact, and the hash of a standard is the standard itself. -/

def trial : ObjectiveDefinition ℚ :=
  { key := ⟨"build"⟩
    title := "Keep the build green"
    mode := .converge
    checks :=
      [⟨⟨"make"⟩, .goal, .command ⟨"make"⟩⟩,
        ⟨⟨"review"⟩, .ratchet, .evaluator ⟨[⟨"clarity", "reads well"⟩], 2, .median⟩⟩]
    constraints := []
    budget := ⟨10, 1000, 60⟩
    compact := .everySettle }

/-- The trial is defined and approved. -/
def trialApproved : List (Event ℚ (Canonical ℚ)) :=
  [.definitionChanged trial, .approvalGranted trial.key ⟨trial.canonical, "owner"⟩]

/-- Both checks of the first evaluation answer, the review's samples in reverse. -/
def trialAnswered : List (Event ℚ (Canonical ℚ)) :=
  trialApproved ++
    [.requested trial.key ⟨"r1"⟩,
      .checkFinished trial.key ⟨0⟩ ⟨"review"⟩ ⟨"r1"⟩ 1 (.evaluator ⟨[], ⟨0, 0, 0⟩⟩),
      .checkFinished trial.key ⟨0⟩ ⟨"make"⟩ ⟨"r1"⟩ 0 (.command ⟨0⟩),
      .checkFinished trial.key ⟨0⟩ ⟨"review"⟩ ⟨"r1"⟩ 0 (.evaluator ⟨[], ⟨0, 0, 0⟩⟩)]

theorem run_sound_trial :
    ∃ o, (run (react id) State.default trialAnswered).objectives[trial.key]? = some o ∧
      o.evaluations = 1 ∧ o.Sound id trial.key := by
  have found : ((run (react id) State.default
      trialAnswered).objectives[trial.key]?).map (·.evaluations) = some 1 := by decide +kernel
  obtain ⟨o, stored, evaluations⟩ := Option.map_eq_some_iff.mp found
  exact ⟨o, stored, evaluations, (run_sound Function.injective_id trialAnswered stored).1⟩

end NeigeCalm.Objective
