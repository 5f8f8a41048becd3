import NeigeCalm.Objective.Invariant

/-!
# Decided verdicts and kept revisions

Two consequences of the invariant over whole runs.  No verdict the engine
computes is undecided by kind: every baseline result is of the kind of a check
of the current definition, through any sequence of redefinitions.  And a kept
revision is sound: the verdict computed when the last sample arrived is still
that of the definition and the baseline in force when the planner settles.
-/

namespace NeigeCalm.Objective

open Library List Option Machine ObjectiveDefinition

variable {F H : Type} [Scalar F]

/-! ## Findings of fitting results -/

/-- Every check's finding is a comparison; none is missing or of another kind. -/
def Verdict.Decided (verdict : Verdict) : Prop :=
  ∀ reason ∈ verdict.reasons,
    ∃ comparison, reason.finding = .compared comparison ∨ reason.finding = .noBaseline comparison

section Findings

variable {definition : ObjectiveDefinition F} {check : CheckDefinition F}

omit [Scalar F] in
theorem ResultsCover.get (cover : ResultsCover definition results)
    (member : check ∈ definition.checks) : ∃ own, results[check.id]? = some own :=
  isSome_iff_exists.mp
    (Std.ExtTreeMap.mem_iff_isSome_getElem?.mp ((cover check.id).mpr ⟨check, member, rfl⟩))

theorem ResultsFit.kind (fit : ResultsFit definition results) (valid : definition.validate = [])
    (member : check ∈ definition.checks) (stored : results[check.id]? = some output) :
    output.kind = check.config.kind := by
  obtain ⟨_, found, kind⟩ := fit check.id output stored
  have own := check_of_mem valid member
  cases found.symm.trans own
  exact kind

theorem finding_decided (valid : definition.validate = []) (base : ResultsFit definition baseline)
    (fit : ResultsFit definition results) (cover : ResultsCover definition results)
    (member : check ∈ definition.checks) :
    ∃ comparison, finding check baseline results = .compared comparison ∨
      finding check baseline results = .noBaseline comparison := by
  obtain ⟨_, ownStored⟩ := cover.get member
  have ownKind := fit.kind valid member ownStored
  cases baseStored : baseline[check.id]? with
  | none =>
    obtain ⟨comparison, compared⟩ := CheckConfig.compare_of_kind ownKind ownKind
    exact ⟨comparison, .inr (by simp [finding, ownStored, baseStored, compared])⟩
  | some =>
    have baseKind := base.kind valid member baseStored
    obtain ⟨comparison, compared⟩ := CheckConfig.compare_of_kind baseKind ownKind
    exact ⟨comparison, .inl (by simp [finding, ownStored, baseStored, compared])⟩

theorem keepable_decided (valid : definition.validate = [])
    (base : ResultsFit definition baseline) (fit : ResultsFit definition results)
    (cover : ResultsCover definition results) : (keepable definition baseline results).Decided := by
  intro reason member
  obtain ⟨_, checkMember, rfl⟩ := mem_map.mp member
  exact finding_decided valid base fit cover checkMember

omit [Scalar F] in
theorem ResultsFit.empty (definition : ObjectiveDefinition F) : ResultsFit definition ∅ := by
  intro id output stored
  simp at stored

/-- The comparison behind a finding that passed. -/
theorem compare_of_finding_passed (cover : ResultsCover definition results)
    (member : check ∈ definition.checks) (passed : (finding check baseline results).passed = true) :
    ∃ own comparison, results[check.id]? = some own ∧
      check.config.compare ((baseline[check.id]?).getD own) own = some comparison ∧
      comparison.passed = true := by
  obtain ⟨own, ownStored⟩ := cover.get member
  -- without a baseline result the own one is compared with itself
  cases compared : check.config.compare ((baseline[check.id]?).getD own) own with
  | none =>
    cases baseStored : baseline[check.id]? <;>
      simp_all [finding, Finding.passed, Finding.comparison]
  | some comparison =>
    refine ⟨own, comparison, ownStored, compared, ?_⟩
    cases baseStored : baseline[check.id]? <;>
      simp_all [finding, Finding.passed, Finding.comparison]

/-- A ratchet that does not regress compares with the baseline, and not as worse. -/
theorem compare_of_ratchet (cover : ResultsCover definition results)
    (member : check ∈ definition.checks) (baseStored : baseline[check.id]? = some output)
    (held : regresses .ratchet (finding check baseline results) = false) :
    ∃ own comparison, results[check.id]? = some own ∧
      check.config.compare output own = some comparison ∧ comparison.trend ≠ .worse := by
  obtain ⟨own, ownStored⟩ := cover.get member
  unfold finding at held
  simp only [ownStored, baseStored] at held
  cases compared : check.config.compare output own with
  | none => simp [compared, regresses] at held
  | some comparison =>
    exact ⟨own, comparison, ownStored, compared, by simpa [compared, regresses] using held⟩

end Findings

/-! ## No verdict is undecided by kind -/

/-- The stored results of an objective compare under its current definition. -/
structure ObjectiveState.Comparable (o : ObjectiveState F H) : Prop where
  /-- Every baseline result is of the kind of a check of the current definition. -/
  baseline : ∀ baseline, o.ledger.baseline = some baseline →
    ResultsFit o.definition baseline.results
  latest : ∀ verdict, o.latestVerdict = some verdict → verdict.Decided
  ready : ∀ id revision results verdict,
    o.evaluation = some (.ready id revision results verdict) →
      ResultsFit o.definition results ∧ verdict.Decided

omit [Scalar F] in
theorem ObjectiveState.resultsInForce_fit {o : ObjectiveState F H}
    (baseline : ∀ baseline, o.ledger.baseline = some baseline →
      ResultsFit o.definition baseline.results) :
    ResultsFit o.definition o.ledger.resultsInForce := by
  unfold Ledger.resultsInForce Ledger.baselineResults
  cases stored : o.ledger.baseline with
  | none => exact .empty _
  | some b => exact baseline b stored

/-- Pruning keeps only results whose check kept its configuration, hence its kind. -/
theorem Ledger.retainComparable_fit {previous next : ObjectiveDefinition F} {ledger : Ledger F}
    (fit : ∀ baseline, ledger.baseline = some baseline → ResultsFit previous baseline.results)
    {baseline : Baseline F} (stored : (ledger.retainComparable previous next).baseline =
      some baseline) : ResultsFit next baseline.results := by
  simp only [retainComparable, map_eq_some_iff] at stored
  obtain ⟨old, oldStored, rfl⟩ := stored
  intro id output kept
  rw [Std.ExtTreeMap.getElem?_filter', filter_eq_some_iff] at kept
  obtain ⟨oldOutput, comparable⟩ := kept
  obtain ⟨_, beforeFound, kind⟩ := fit old oldStored id output oldOutput
  simp only [Ledger.comparable, beforeFound] at comparable
  cases afterFound : next.check id with
  | none => simp [afterFound] at comparable
  | some after =>
    rw [afterFound] at comparable
    exact ⟨after, rfl, kind.trans (CheckConfig.kind_eq_of_eq comparable)⟩

variable [DecidableEq H] {digest : Canonical F → H} {key : ObjectiveKey}
  {event : Event F H} {o o' : ObjectiveState F H}

theorem Change.comparable (injective : Function.Injective digest)
    (change : Change digest usage key event o o' occurrences) (sound : o.Sound digest key)
    (comparable : o.Comparable) : o'.Comparable := by
  cases change with
  | kept => exact comparable
  | @redefined definition _ _ _ _ same =>
    obtain ⟨-, -, sameChecks, -⟩ := standard_eq_of_hash injective same
    have fit : ∀ results, ResultsFit o.definition results → ResultsFit definition results := by
      intro results fit
      simpa only [ResultsFit, check, ← sameChecks] using fit
    refine ⟨fun b stored => fit _ (comparable.baseline b stored), comparable.latest, ?_⟩
    intro id revision results verdict ready
    obtain ⟨resultsFit, decided⟩ := comparable.ready id revision results verdict ready
    exact ⟨fit _ resultsFit, decided⟩
  | restated =>
    refine ⟨fun b stored => ?_, by simp [ObjectiveState.restate], by simp [ObjectiveState.restate]⟩
    exact Ledger.retainComparable_fit comparable.baseline stored
  | approved | reminded => exact ⟨comparable.baseline, comparable.latest, comparable.ready⟩
  | started =>
    exact ⟨comparable.baseline, comparable.latest, by simp [ObjectiveState.launch]⟩
  | collected => exact ⟨comparable.baseline, comparable.latest, by simp [ObjectiveState.collect]⟩
  | @concluded _ _ _ revision _ _ samples id _ running defined inRange accepted _ full =>
    have samplesFit := (sound.running id revision samples running).1.add defined inRange accepted
    have fit := combineAll_fit samplesFit sound.valid full
    have cover := combineAll_cover samplesFit sound.valid full
    have decided := keepable_decided sound.valid
      (ObjectiveState.resultsInForce_fit comparable.baseline) fit cover
    refine ⟨comparable.baseline, ?_, ?_⟩
    · intro verdict stored
      cases stored
      exact decided
    · intro id' revision' results' verdict' ready'
      simp only [ObjectiveState.conclude, some.injEq, Evaluation.ready.injEq] at ready'
      obtain ⟨-, -, rfl, rfl⟩ := ready'
      exact ⟨fit, decided⟩
  | @settled _ _ _ _ revision results verdict id _ ready recorded =>
    obtain ⟨-, -, -, moved⟩ := Ledger.settle_ok recorded
    refine ⟨fun b stored => ?_, comparable.latest, by simp [ObjectiveState.settle]⟩
    simp only [ObjectiveState.settle, moved] at stored
    split at stored
    · exact comparable.baseline b stored
    · cases stored
      exact (comparable.ready id revision results verdict ready).1
  | closed => exact ⟨comparable.baseline, comparable.latest, by simp [ObjectiveState.close]⟩

/-- Every stored objective is sound and its results compare. -/
def State.Comparable (digest : Canonical F → H) (s : State F H) : Prop :=
  ∀ (key : ObjectiveKey) (o : ObjectiveState F H),
    s.objectives[key]? = some o → o.Sound digest key ∧ o.Comparable

theorem State.Comparable.default : State.default.Comparable digest := by
  intro key o stored
  simp [State.default] at stored

theorem State.Comparable.react (injective : Function.Injective digest)
    (comparable : s.Comparable digest) (event : Event F H) :
    (Objective.react digest s event).1.Comparable digest := by
  refine react_each (fun valid own => ?_) (fun change ⟨sound, here⟩ => ?_) comparable event
  · exact ⟨.create valid own, by simp [ObjectiveState.create, Ledger.default],
      by simp [ObjectiveState.create], by simp [ObjectiveState.create]⟩
  · exact ⟨change.sound injective sound, change.comparable injective sound here⟩

theorem State.Comparable.of_reachable (injective : Function.Injective digest)
    (reachable : Reachable (Objective.react digest) State.default s) : s.Comparable digest :=
  reachable.preserves (State.Comparable digest)
    (fun _ event comparable => State.Comparable.react injective comparable event) .default

/-- **No engine verdict is ever undecided by kind.** -/
theorem reachable_comparable (injective : Function.Injective digest) {s : State F H}
    (reachable : Reachable (react digest) State.default s) (stored : s.objectives[key]? = some o) :
    (∀ baseline, o.ledger.baseline = some baseline → ∀ id output,
      baseline.results[id]? = some output →
        ∃ check, o.definition.check id = some check ∧ output.kind = check.config.kind) ∧
      (∀ verdict, o.latestVerdict = some verdict → verdict.Decided) ∧
      ∀ id revision results verdict,
        o.evaluation = some (.ready id revision results verdict) → verdict.Decided := by
  obtain ⟨-, comparable⟩ := State.Comparable.of_reachable injective reachable key o stored
  exact ⟨comparable.baseline, comparable.latest, fun id revision results verdict ready =>
    (comparable.ready id revision results verdict ready).2⟩

theorem reachable_comparable_trial :
    ∃ o verdict, (run (react id) State.default trialAnswered).objectives[trial.key]? =
      some o ∧ o.latestVerdict = some verdict ∧ verdict.Decided := by
  have found : ((run (react id) State.default
      trialAnswered).objectives[trial.key]?).map (·.latestVerdict.isSome) = some true := by
    decide +kernel
  obtain ⟨o, stored, judged⟩ := map_eq_some_iff.mp found
  obtain ⟨verdict, latest⟩ := isSome_iff_exists.mp judged
  have comparable := reachable_comparable Function.injective_id ⟨trialAnswered, rfl⟩ stored
  exact ⟨o, verdict, stored, latest, comparable.2.1 verdict latest⟩

/-! ## Kept revisions -/

/-- What a kept entry has to satisfy, given the definition and the baseline
results in force when it is settled. -/
structure KeptSound (definition : ObjectiveDefinition F) (baseline : Results F)
    (entry : LedgerEntry F) : Prop where
  covered : ∀ check ∈ definition.checks, ∃ own, entry.results[check.id]? = some own
  /-- Every invariant passes, compared with the baseline or else on its own. -/
  invariants : ∀ check ∈ definition.checks, check.role = .invariant →
    ∃ own comparison, entry.results[check.id]? = some own ∧
      check.config.compare ((baseline[check.id]?).getD own) own = some comparison ∧
      comparison.passed = true
  ratchets : ∀ check ∈ definition.checks, check.role = .ratchet →
    ∀ base, baseline[check.id]? = some base →
      ∃ own comparison, entry.results[check.id]? = some own ∧
        check.config.compare base own = some comparison ∧ comparison.trend ≠ .worse
  /-- Done is reached only by converging on at least one goal, all of which pass. -/
  goals : entry.decision = .done → definition.mode = .converge ∧
    (∃ check ∈ definition.checks, check.role = .goal) ∧
    ∀ check ∈ definition.checks, check.role = .goal →
      ∃ own comparison, entry.results[check.id]? = some own ∧
        check.config.compare ((baseline[check.id]?).getD own) own = some comparison ∧
        comparison.passed = true

/-- A settle that the verdict of the current definition and baseline allows is sound. -/
theorem KeptSound.of_settle {ledger ledger' : Ledger F}
    (cover : ResultsCover definition entry.results) (kept : entry.decision ≠ .discard)
    (recorded : ledger.settle entry (keepable definition baseline entry.results) = .ok ledger') :
    KeptSound definition baseline entry := by
  obtain ⟨keeps, finishes, _⟩ := Ledger.settle_ok recorded
  have held : ∀ check ∈ definition.checks,
      regresses check.role (finding check baseline entry.results) = false := by
    intro check member
    exact regresses_of_verdictKind_ne (keeps kept) _ (mem_map_of_mem member)
  refine ⟨fun check member => cover.get member, ?_, ?_, ?_⟩
  · intro check member role
    have here := held check member
    rw [role] at here
    exact compare_of_finding_passed cover member (by simpa [regresses] using here)
  · intro check member role base stored
    have here := held check member
    rw [role] at here
    exact compare_of_ratchet cover member stored here
  · intro done
    obtain ⟨converge, ⟨_, reasonMember, goal⟩, passed⟩ := goals_of_verdictKind_done (finishes done)
    obtain ⟨check, member, rfl⟩ := mem_map.mp reasonMember
    refine ⟨converge, ⟨check, member, goal⟩, fun other otherMember role => ?_⟩
    exact compare_of_finding_passed cover otherMember (passed _ (mem_map_of_mem otherMember) role)

/-- The baseline that the kept entries among `entries` leave, starting from `baseline`. -/
def keptBaseline (baseline : Option (Baseline F)) (entries : List (LedgerEntry F)) :
    Option (Baseline F) :=
  entries.foldl (fun current entry =>
    if entry.decision = .discard then current
    else some { revision := entry.revision, results := entry.results }) baseline

/-- `pruned` is `full` with the same revision and some results dropped. -/
def Pruned : Option (Baseline F) → Option (Baseline F) → Prop
  | none, none => True
  | some full, some pruned => pruned.revision = full.revision ∧
      ∀ (id : CheckId) (output : CheckOutput F),
        pruned.results[id]? = some output → full.results[id]? = some output
  | _, _ => False

omit [Scalar F] in
theorem Pruned.refl (baseline : Option (Baseline F)) : Pruned baseline baseline := by
  cases baseline with
  | none => trivial
  | some => exact ⟨rfl, fun _ _ stored => stored⟩

theorem Pruned.trans (first : Pruned a b) (second : Pruned b c) : Pruned a c := by
  cases a <;> cases b <;> cases c <;> try exact first.elim
  · trivial
  · exact second.elim
  · exact second.elim
  · exact ⟨second.1.trans first.1, fun id output stored => first.2 id output
      (second.2 id output stored)⟩

omit [Scalar F] in
/-- Entries settled on a pruned baseline leave a pruned baseline. -/
theorem Pruned.keptBaseline (entries : List (LedgerEntry F)) (h : Pruned full pruned) :
    Pruned (Objective.keptBaseline full entries) (Objective.keptBaseline pruned entries) := by
  induction entries generalizing full pruned with
  | nil => exact h
  | cons _ _ ih =>
    apply ih
    dsimp only
    split
    · exact h
    · exact .refl _

theorem Pruned.retainComparable (ledger : Ledger F) (previous next : ObjectiveDefinition F) :
    Pruned ledger.baseline (ledger.retainComparable previous next).baseline := by
  unfold Ledger.retainComparable
  cases ledger.baseline with
  | none => trivial
  | some =>
    refine ⟨rfl, fun id output stored => ?_⟩
    rw [Std.ExtTreeMap.getElem?_filter', filter_eq_some_iff] at stored
    exact stored.1

/-- What one event does to a ledger: it appends the entries it settles, and the
baseline is theirs, up to results a redefinition drops. -/
theorem Change.ledger (change : Change digest usage key event o o' occurrences) :
    ∃ appended, o'.ledger.entries = o.ledger.entries ++ appended ∧
      Pruned (keptBaseline o.ledger.baseline appended) o'.ledger.baseline ∧
      ((∀ definition, event ≠ .definitionChanged definition) →
        o'.ledger.baseline = keptBaseline o.ledger.baseline appended) := by
  by_cases same : o'.ledger = o.ledger
  · exact ⟨[], by simp [same], by rw [same]; exact .refl _, fun _ => by rw [same]; rfl⟩
  cases change with
  | @restated definition =>
    exact ⟨[], by simp [ObjectiveState.restate, ObjectiveState.redefine, Ledger.retainComparable],
      .retainComparable _ _ _, fun other => absurd rfl (other definition)⟩
  | @settled decision note _ ledger revision results _ _ _ _ recorded =>
    obtain ⟨-, -, entries, baseline⟩ := Ledger.settle_ok recorded
    refine ⟨[⟨revision, results, decision, note⟩], entries, ?_, fun _ => baseline⟩
    rw [show (o.settle ledger decision usage).ledger.baseline = _ from baseline]
    exact .refl _
  | _ => exact absurd rfl same

/-- The ledger over a whole run, from any state. -/
theorem run_ledger (digest : Canonical F → H) (events : List (Event F H))
    (before : s.objectives[key]? = some o)
    (after : (run (react digest) s events).objectives[key]? = some o') :
    ∃ appended, o'.ledger.entries = o.ledger.entries ++ appended ∧
      Pruned (keptBaseline o.ledger.baseline appended) o'.ledger.baseline ∧
      ((∀ event ∈ events, ∀ definition, event ≠ .definitionChanged definition) →
        o'.ledger.baseline = keptBaseline o.ledger.baseline appended) := by
  induction events generalizing s o with
  | nil =>
    cases before.symm.trans after
    exact ⟨[], by simp, .refl _, fun _ => rfl⟩
  | cons event _ ih =>
    obtain ⟨_, _, stored, change⟩ := react_changed digest event before
    obtain ⟨first, firstEntries, firstPruned, firstExact⟩ := change.ledger
    obtain ⟨second, entries, pruned, exact⟩ := ih stored after
    refine ⟨first ++ second, by rw [entries, firstEntries, append_assoc], ?_, ?_⟩
    · rw [keptBaseline, foldl_append]
      exact (firstPruned.keptBaseline second).trans pruned
    · intro plain
      rw [exact fun other member => plain other (mem_cons_of_mem _ member),
        firstExact (plain event mem_cons_self)]
      simp [keptBaseline, foldl_append]

/-- One event that appends an entry settles the ready evaluation the invariant speaks of. -/
theorem Change.appended {entry : LedgerEntry F} (sound : o.Sound digest key)
    (change : Change digest usage key event o o' occurrences)
    (appended : o'.ledger.entries = o.ledger.entries ++ [entry])
    (kept : entry.decision ≠ .discard) :
    KeptSound o.definition (o.ledger.baselineResults.getD ∅) entry ∧
      o'.ledger.baseline = some { revision := entry.revision, results := entry.results } := by
  cases change with
  | @settled decision note _ ledger revision results verdict id _ ready recorded =>
    obtain ⟨cover, judged⟩ := sound.ready id revision results verdict ready
    obtain ⟨-, -, entries, baseline⟩ := Ledger.settle_ok recorded
    obtain rfl : ⟨revision, results, decision, note⟩ = entry := by
      simpa using entries.symm.trans appended
    refine ⟨.of_settle cover kept (judged ▸ recorded), ?_⟩
    rw [show (o.settle ledger decision usage).ledger.baseline = _ from baseline, if_neg kept]
  | _ =>
    have same : o.ledger.entries = o.ledger.entries ++ [entry] := appended
    simp at same

/-- **Kept revisions are sound.**  From every reachable state: an event that
appends a keep or done entry appends one that the definition and the baseline in
force at that moment allow, and makes it the baseline; and over any further run
the baseline is that of the last kept entry appended, or else the old one, up
to results that a redefinition drops. -/
theorem kept_sound (injective : Function.Injective digest) {s : State F H}
    (reachable : Reachable (react digest) State.default s) (before : s.objectives[key]? = some o) :
    (∀ event o' entry, (react digest s event).1.objectives[key]? = some o' →
      o'.ledger.entries = o.ledger.entries ++ [entry] →
        entry.decision = .keep ∨ entry.decision = .done →
        KeptSound o.definition (o.ledger.baselineResults.getD ∅) entry ∧
          o'.ledger.baseline = some { revision := entry.revision, results := entry.results }) ∧
      ∀ events o', (run (react digest) s events).objectives[key]? = some o' →
        ∃ appended, o'.ledger.entries = o.ledger.entries ++ appended ∧
          Pruned (keptBaseline o.ledger.baseline appended) o'.ledger.baseline ∧
          ((∀ event ∈ events, ∀ definition, event ≠ .definitionChanged definition) →
            o'.ledger.baseline = keptBaseline o.ledger.baseline appended) := by
  obtain ⟨sound, -⟩ := State.Comparable.of_reachable injective reachable key o before
  refine ⟨?_, fun events o' after => run_ledger digest events before after⟩
  intro event o' entry after appended kept
  obtain ⟨_, _, stored, change⟩ := react_changed digest event before
  cases stored.symm.trans after
  refine change.appended sound appended ?_
  rcases kept with keep | done
  · simp [keep]
  · simp [done]

/-- The trial's first evaluation is settled as done. -/
def trialSettle : Event ℚ (Canonical ℚ) := .settled trial.key ⟨0⟩ .done "green"

theorem kept_sound_trial :
    ∃ o o' entry, (run (react id) State.default
        trialAnswered).objectives[trial.key]? = some o ∧
      (react id (run (react id) State.default trialAnswered)
        trialSettle).1.objectives[trial.key]? = some o' ∧
      o'.ledger.entries = o.ledger.entries ++ [entry] ∧ entry.decision = .done ∧
      KeptSound o.definition (o.ledger.baselineResults.getD ∅) entry ∧
      o'.ledger.baseline = some { revision := entry.revision, results := entry.results } := by
  have before : ((run (react id) State.default
      trialAnswered).objectives[trial.key]?).map (·.ledger.entries.length) = some 0 := by
    decide +kernel
  have after : ((react id (run (react id) State.default trialAnswered)
      trialSettle).1.objectives[trial.key]?).map (·.ledger.entries.map (·.decision)) =
        some [.done] := by decide +kernel
  obtain ⟨o, stored, none⟩ := map_eq_some_iff.mp before
  obtain ⟨o', stored', decisions⟩ := map_eq_some_iff.mp after
  obtain ⟨entry, entries, done⟩ := map_eq_singleton_iff.mp decisions
  have appended : o'.ledger.entries = o.ledger.entries ++ [entry] := by
    rw [entries, length_eq_zero_iff.mp none]
    rfl
  obtain ⟨sound, baseline⟩ := (kept_sound Function.injective_id ⟨trialAnswered, rfl⟩ stored).1
    trialSettle o' entry stored' appended (.inr done)
  exact ⟨o, o', entry, stored, stored', appended, done, sound, baseline⟩

end NeigeCalm.Objective
