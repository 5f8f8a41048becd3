import NeigeCalm.Objective.Intents

/-!
# Sample arrival

Results of check runs arrive in any order, among results of other evaluations.
`Samples.addAll` collects answers; it does not depend on their order, because
distinct samples are stored under distinct indices.  `run_answers` gives the
state after any list of fresh answers in one formula, and `run_interleaved` the
evaluated objective after any stream of results.
-/

namespace NeigeCalm.Objective

open Library List Std Machine OrderedMap Samples

variable {F H : Type}

/-! ## Collecting answers -/

/-- One result of a check run of a given evaluation. -/
structure Answer (F : Type) where
  check : CheckId
  sample : Nat
  output : SampleOutput F
  deriving DecidableEq

/-- What the host reports for an answer. -/
def Answer.event (key : ObjectiveKey) (id : EvaluationId) (revision : Revision) (a : Answer F) :
    Event F H :=
  .checkFinished key id a.check revision a.sample a.output

def Answer.run (a : Answer F) : CheckId × Nat := (a.check, a.sample)

/-- The answer is to a run of the definition and of the kind it takes. -/
def Answer.Fits (definition : ObjectiveDefinition F) (a : Answer F) : Prop :=
  ∃ check, definition.check a.check = some check ∧ a.sample < check.config.samples ∧
    check.config.accepts a.output = true

/-- `samples` with all the answers stored. -/
def Samples.addAll (samples : Samples F) (answers : List (Answer F)) : Samples F :=
  answers.foldl (fun samples a => samples.add a.check a.sample a.output) samples

variable (samples : Samples F)

@[simp] theorem Samples.addAll_nil : samples.addAll [] = samples := rfl

@[simp] theorem Samples.addAll_cons (a : Answer F) (rest : List (Answer F)) :
    samples.addAll (a :: rest) = (samples.add a.check a.sample a.output).addAll rest := rfl

theorem Samples.getElem?_received_add (a : Answer F) (check : CheckId) (index : Nat) :
    ((samples.add a.check a.sample a.output).received check)[index]? =
      if (check, index) = a.run then some a.output else (samples.received check)[index]? := by
  rw [received_add]
  by_cases same : check = a.check
  · subst same
    rw [if_pos rfl, get_insert]
    simp [Answer.run]
  · rw [if_neg same, if_neg (by simp [Answer.run, same])]

/-- Samples of distinct runs are stored independently. -/
theorem Samples.add_comm {a b : Answer F} (different : a.run ≠ b.run) :
    (samples.add a.check a.sample a.output).add b.check b.sample b.output =
      (samples.add b.check b.sample b.output).add a.check a.sample a.output := by
  have written : ∀ (stored : Samples F) (c : Answer F), stored.add c.check c.sample c.output =
    stored.insert c.check ((stored.received c.check).insert c.sample c.output) := fun _ _ => rfl
  rw [written (samples.add a.check a.sample a.output), written (samples.add b.check _ _),
    received_add, received_add, written, written]
  by_cases same : a.check = b.check
  · have indices : a.sample ≠ b.sample := fun eq => different (Prod.ext same eq)
    rw [if_pos same.symm, if_pos same, same, insert_insert, insert_insert, insert_comm indices]
  · rw [if_neg (Ne.symm same), if_neg same, insert_comm same]

theorem Samples.addAll_perm {answers answers' : List (Answer F)}
    (distinct : (answers.map Answer.run).Nodup) (perm : answers.Perm answers') :
    samples.addAll answers = samples.addAll answers' := by
  refine perm.foldl_eq' (fun a aMember b bMember z => ?_) samples
  by_cases same : a.run = b.run
  · rw [inj_on_of_nodup_map distinct aMember bMember same]
  · exact add_comm z same

theorem Samples.mem_received_add (a : Answer F) (check : CheckId) (index : Nat) :
    index ∈ (samples.add a.check a.sample a.output).received check ↔
      index ∈ samples.received check ∨ (check, index) = a.run := by
  rw [ExtTreeMap.mem_iff_isSome_getElem?, getElem?_received_add, ExtTreeMap.mem_iff_isSome_getElem?]
  by_cases here : (check, index) = a.run <;> simp [here]

theorem Samples.mem_received_addAll (answers : List (Answer F)) (check : CheckId) (index : Nat) :
    index ∈ (samples.addAll answers).received check ↔
      index ∈ samples.received check ∨ ∃ a ∈ answers, a.run = (check, index) := by
  induction answers generalizing samples with
  | nil => simp
  | cons _ _ ih =>
    rw [addAll_cons, ih, mem_received_add, exists_mem_cons_iff, or_assoc, eq_comm]

variable {samples : Samples F}

/-- What is stored of distinct answers is each of them. -/
theorem Samples.getElem?_received_addAll (distinct : (answers.map Answer.run).Nodup) :
    ((samples.addAll answers).received check)[index]? = some output ↔
      ⟨check, index, output⟩ ∈ answers ∨
        (samples.received check)[index]? = some output ∧ ∀ a ∈ answers, a.run ≠ (check, index) := by
  induction answers generalizing samples with
  | nil => simp
  | cons a rest ih =>
    obtain ⟨new, distinctRest⟩ := nodup_cons.mp distinct
    rw [addAll_cons, ih distinctRest, getElem?_received_add, mem_cons, forall_mem_cons]
    by_cases here : (check, index) = a.run
    · -- The head is the one answer to this run.
      obtain ⟨rfl, rfl⟩ := Prod.mk.inj here
      have only : ∀ b ∈ rest, b.run ≠ a.run :=
        fun b member same => new (same ▸ mem_map_of_mem member)
      have elsewhere : ⟨a.check, a.sample, output⟩ ∉ rest :=
        fun member => only _ member rfl
      rw [if_pos here]
      simp only [elsewhere, false_or, or_false, Option.some.injEq, here, ne_eq, not_true_eq_false,
        false_and, and_false]
      exact ⟨fun ⟨same, _⟩ => by rw [← same],
        fun same => ⟨(congrArg Answer.output same).symm, only⟩⟩
    · have other : ⟨check, index, output⟩ ≠ a := fun same => here (by rw [← same]; rfl)
      rw [if_neg here]
      simp only [other, false_or, ne_eq, Ne.symm here, not_false_eq_true, true_and]

theorem SamplesFit.addAll (fit : SamplesFit definition samples)
    (fits : ∀ a ∈ answers, a.Fits definition) : SamplesFit definition (samples.addAll answers) := by
  induction answers generalizing samples with
  | nil => exact fit
  | cons a _ ih =>
    obtain ⟨_, defined, inRange, accepted⟩ := fits a mem_cons_self
    exact ih (fit.add defined inRange accepted)
      fun other member => fits other (mem_cons_of_mem _ member)

/-- The received samples and the answers together are every sample of every check. -/
def Covers (definition : ObjectiveDefinition F) (samples : Samples F)
    (answers : List (Answer F)) : Prop :=
  ∀ check ∈ definition.checks, ∀ index < check.config.samples,
    index ∈ samples.received check.id ∨ ∃ a ∈ answers, a.run = (check.id, index)

/-- Answers to runs of the definition, each to another run that has no sample yet. -/
structure Fresh (definition : ObjectiveDefinition F) (samples : Samples F)
    (answers : List (Answer F)) : Prop where
  distinct : (answers.map Answer.run).Nodup
  fits : ∀ a ∈ answers, a.Fits definition
  fresh : ∀ a ∈ answers, a.sample ∉ samples.received a.check

theorem Fresh.of_perm (fresh : Fresh definition samples answers) (perm : answers.Perm answers') :
    Fresh definition samples answers' where
  distinct := (perm.map Answer.run).nodup_iff.mp fresh.distinct
  fits a member := fresh.fits a (perm.mem_iff.mpr member)
  fresh a member := fresh.fresh a (perm.mem_iff.mpr member)

theorem Fresh.tail (fresh : Fresh definition samples (a :: rest)) :
    Fresh definition (samples.add a.check a.sample a.output) rest where
  distinct := (nodup_cons.mp fresh.distinct).2
  fits b member := fresh.fits b (mem_cons_of_mem _ member)
  fresh b member received := by
    rcases (samples.mem_received_add a b.check b.sample).mp received with before | same
    · exact fresh.fresh b (mem_cons_of_mem _ member) before
    · exact (nodup_cons.mp fresh.distinct).1 (same ▸ mem_map_of_mem member)

/-- The answers before the last one do not reach the run of the last one. -/
theorem Fresh.concat (fresh : Fresh definition samples (init ++ [last])) :
    Fresh definition samples init ∧ last.Fits definition ∧
      last.sample ∉ (samples.addAll init).received last.check := by
  have distinct := fresh.distinct
  rw [map_append, nodup_append'] at distinct
  refine ⟨⟨distinct.1, fun a member => fresh.fits a (mem_append_left _ member),
    fun a member => fresh.fresh a (mem_append_left _ member)⟩,
    fresh.fits last (by simp), fun received => ?_⟩
  rcases (samples.mem_received_addAll init last.check last.sample).mp received with
    before | ⟨a, member, same⟩
  · exact fresh.fresh last (by simp) before
  · exact distinct.2.2 (mem_map_of_mem member) (mem_singleton.mpr same)

section Valid

variable [Scalar F] {answers : List (Answer F)}

theorem complete_addAll_iff (fit : SamplesFit definition samples)
    (valid : definition.validate = []) (fits : ∀ a ∈ answers, a.Fits definition) :
    complete definition (samples.addAll answers) = true ↔ Covers definition samples answers := by
  rw [complete_iff_not_lacks (fit.addAll fits) valid]
  unfold Lacks Covers
  push Not
  simp only [mem_received_addAll]

/-- An answer to a run that has no sample is to one that the evaluation lacks. -/
theorem Answer.Fits.not_complete {a : Answer F} (fits : a.Fits definition)
    (fit : SamplesFit definition samples) (valid : definition.validate = [])
    (absent : a.sample ∉ samples.received a.check) : complete definition samples = false := by
  obtain ⟨check, defined, inRange, -⟩ := fits
  obtain ⟨member, own⟩ := ObjectiveDefinition.check_mem defined
  refine eq_false_of_ne_true fun full => (complete_iff_not_lacks fit valid).mp full ?_
  exact ⟨check, member, a.sample, inRange, own ▸ absent⟩

end Valid

/-! ## Answers to a running evaluation -/

variable [Scalar F]

/-- The objective once evaluation `id` of `revision` has received `samples`. -/
def ObjectiveState.answered (o : ObjectiveState F H) (id : EvaluationId) (revision : Revision)
    (samples : Samples F) : ObjectiveState F H :=
  if complete o.definition samples then o.conclude id revision samples
  else o.collect id revision samples

/-- The notice that the last sample brings. -/
def ObjectiveState.readyNotice (o : ObjectiveState F H) (key : ObjectiveKey) (id : EvaluationId)
    (revision : Revision) (samples : Samples F) : List (Intent F H) :=
  if complete o.definition samples then
    [.notify (.evaluationReady key id revision (o.judge (combineAll o.definition samples)).kind)]
  else []

section Running

variable [DecidableEq H]
  {o : ObjectiveState F H} {id : EvaluationId} {revision : Revision} {samples : Samples F}

theorem react_answer {a : Answer F}
    (stored : s.objectives[key]? = some (o.collect id revision samples)) (isOpen : o.status = .open)
    (fits : a.Fits o.definition) (fresh : a.sample ∉ samples.received a.check) :
    react digest s (a.event key id revision) =
      (s.put key (o.answered id revision (samples.add a.check a.sample a.output)),
        o.readyNotice key id revision (samples.add a.check a.sample a.output)) := by
  obtain ⟨_, defined, inRange, accepted⟩ := fits
  have opened : openObjective s key = .ok (o.collect id revision samples) := by
    simp [openObjective, stored, ObjectiveState.collect, isOpen]
  have absent : ¬ (samples.received a.check).contains a.sample = true := by
    rwa [ExtTreeMap.contains_iff_mem]
  have finished : finish s key id a.check revision a.sample a.output =
      if !complete o.definition (samples.add a.check a.sample a.output) then
        (s.put key (o.collect id revision (samples.add a.check a.sample a.output)), [])
      else (s.put key (o.conclude id revision (samples.add a.check a.sample a.output)),
        [.notice (.evaluationReady key id revision
          (o.judge (combineAll o.definition (samples.add a.check a.sample a.output))).kind)]) := by
    unfold finish
    rw [opened]
    simp only [ObjectiveState.collect, defined]
    rw [if_neg (by simp), if_neg (Nat.not_le.mpr inRange), if_neg (by simp [accepted]),
      show samples.getD a.check ∅ = samples.received a.check from rfl, if_neg absent,
      insert_insert]
    rfl
  rw [react, Answer.event, apply, finished, ObjectiveState.answered, ObjectiveState.readyNotice]
  cases complete o.definition (samples.add a.check a.sample a.output) with
  | false | true => rfl

/-- **The state after any list of fresh answers**, and the intents on the way. -/
theorem run_answers (stored : s.objectives[key]? = some (o.collect id revision samples))
    (isOpen : o.status = .open) (valid : o.definition.validate = [])
    (fit : SamplesFit o.definition samples) (waiting : complete o.definition samples = false)
    (fresh : Fresh o.definition samples answers) :
    run (react digest) s (answers.map (Answer.event key id revision)) =
        s.put key (o.answered id revision (samples.addAll answers)) ∧
      outputs (react digest) s (answers.map (Answer.event key id revision)) =
        o.readyNotice key id revision (samples.addAll answers) := by
  induction answers generalizing s samples with
  | nil =>
    simp only [map_nil, run_nil, outputs_nil, addAll_nil,
      ObjectiveState.answered, ObjectiveState.readyNotice, waiting, Bool.false_eq_true, if_false,
      and_true]
    exact (State.put_self stored).symm
  | cons a rest ih =>
    obtain ⟨check, defined, inRange, accepted⟩ := fresh.fits a mem_cons_self
    have fitNext := fit.add defined inRange accepted
    have step : react digest s (a.event key id revision) = _ :=
      react_answer stored isOpen ⟨check, defined, inRange, accepted⟩ (fresh.fresh a mem_cons_self)
    rw [map_cons, run_cons, outputs_cons, step, addAll_cons]
    cases full : complete o.definition (samples.add a.check a.sample a.output) with
    | true =>
      -- A complete evaluation lacks no sample, so no fresh answer is left.
      obtain rfl : rest = [] := by
        by_contra some
        obtain ⟨b, member⟩ := exists_mem_of_ne_nil _ some
        have left := fresh.tail
        cases ((left.fits b member).not_complete fitNext valid
          (left.fresh b member)).symm.trans full
      simp
    | false =>
      have collected : o.answered id revision (samples.add a.check a.sample a.output) =
          o.collect id revision (samples.add a.check a.sample a.output) := by
        simp [ObjectiveState.answered, full]
      have silent : o.readyNotice key id revision (samples.add a.check a.sample a.output) = [] := by
        simp [ObjectiveState.readyNotice, full]
      rw [collected, silent]
      obtain ⟨final, intents⟩ := ih (State.get_put s key _) fitNext full fresh.tail
      rw [final, intents, State.put_put]
      exact ⟨rfl, rfl⟩

/-! ## Streams of results -/

/-- The events that report the result of a check run. -/
def Event.isCheckFinished : Event F H → Bool
  | .checkFinished .. => true
  | _ => false

/-- The answers among `events` to the runs of one evaluation of one revision. -/
def answersTo (key : ObjectiveKey) (id : EvaluationId) (revision : Revision)
    (events : List (Event F H)) : List (Answer F) :=
  events.filterMap fun
    | .checkFinished objective evaluation check tested sample output =>
      if objective = key ∧ evaluation = id ∧ tested = revision then some ⟨check, sample, output⟩
      else none
    | _ => none

/-- The first answer to each run that is not among `seen`. -/
def firstAnswers (seen : List (CheckId × Nat)) : List (Answer F) → List (Answer F)
  | [] => []
  | a :: rest =>
    if a.run ∈ seen then firstAnswers seen rest else a :: firstAnswers (a.run :: seen) rest

omit [Scalar F] in
theorem firstAnswers_distinct (seen : List (CheckId × Nat)) (answers : List (Answer F)) :
    ((firstAnswers seen answers).map Answer.run).Nodup ∧
      ∀ a ∈ firstAnswers seen answers, a.run ∉ seen := by
  induction answers generalizing seen with
  | nil => simp [firstAnswers]
  | cons a _ ih =>
    rw [firstAnswers]
    split
    next => exact ih seen
    next new =>
      obtain ⟨distinct, unseen⟩ := ih (a.run :: seen)
      refine ⟨nodup_cons.mpr ⟨fun member => ?_, distinct⟩, ?_⟩
      · obtain ⟨b, later, same⟩ := mem_map.mp member
        exact unseen b later (same ▸ mem_cons_self)
      · intro b member
        rcases mem_cons.mp member with rfl | later
        · exact new
        · exact fun old => unseen b later (mem_cons_of_mem _ old)

omit [DecidableEq H] in
/-- An evaluation that has `samples` is running on them or done with them. -/
theorem ObjectiveState.answered_running
    (running : (o.answered id revision samples).evaluation = some (.running other tested held)) :
    complete o.definition samples = false ∧ other = id ∧ tested = revision ∧ held = samples := by
  unfold answered at running
  split at running
  · cases running
  next waiting =>
    cases running
    exact ⟨by simpa using waiting, rfl, rfl, rfl⟩

/-- A result for another evaluation, or for a sample that is there, does not
touch the evaluation. -/
theorem react_elsewhere (stored : s.objectives[key]? = some (o.answered id revision samples))
    (elsewhere : objective = key ∧ evaluation = id ∧ tested = revision →
      sample ∈ samples.received check) :
    (react digest s (.checkFinished objective evaluation check tested sample
      output)).1.objectives[key]? = some (o.answered id revision samples) := by
  obtain ⟨_, _, after, change⟩ := react_changed digest
    (.checkFinished objective evaluation check tested sample output) stored
  cases change with
  | kept => exact after
  | started asked => rcases asked with same | same <;> cases same
  | collected _ running _ _ _ fresh | concluded _ running _ _ _ fresh =>
    obtain ⟨-, rfl, rfl, rfl⟩ := ObjectiveState.answered_running running
    rw [← ExtTreeMap.contains_iff_mem, fresh] at elsewhere
    exact absurd (elsewhere ⟨rfl, rfl, rfl⟩) (by simp)

/-- **The objective after any stream of results**: it has received the first
answer to each of its runs, and nothing else matters. -/
theorem run_interleaved (stored : s.objectives[key]? = some (o.answered id revision samples))
    (isOpen : o.status = .open) (valid : o.definition.validate = [])
    (fit : SamplesFit o.definition samples)
    (sees : ∀ check index, (check, index) ∈ seen ↔ index ∈ samples.received check)
    (results : ∀ event ∈ events, event.isCheckFinished = true)
    (fits : ∀ a ∈ firstAnswers seen (answersTo key id revision events), a.Fits o.definition) :
    (run (react digest) s events).objectives[key]? =
      some (o.answered id revision
        (samples.addAll (firstAnswers seen (answersTo key id revision events)))) := by
  induction events generalizing s samples seen with
  | nil => exact stored
  | cons event rest ih =>
    have others : ∀ event ∈ rest, event.isCheckFinished = true :=
      fun other member => results other (mem_cons_of_mem _ member)
    have result := results event mem_cons_self
    cases event with
    | checkFinished objective evaluation check tested sample output =>
      by_cases own : objective = key ∧ evaluation = id ∧ tested = revision
      · obtain ⟨rfl, rfl, rfl⟩ := own
        have answers : answersTo objective evaluation tested (.checkFinished objective evaluation
            check tested sample output :: rest : List (Event F H)) =
            ⟨check, sample, output⟩ :: answersTo objective evaluation tested rest := by
          simp [answersTo]
        rw [answers, firstAnswers] at fits ⊢
        by_cases repeated : (⟨check, sample, output⟩ : Answer F).run ∈ seen
        · rw [if_pos repeated] at fits ⊢
          exact ih (react_elsewhere stored fun _ => (sees check sample).mp repeated) fit sees
            others fits
        · rw [if_neg repeated] at fits ⊢
          have absent : sample ∉ samples.received check :=
            fun received => repeated ((sees check sample).mpr received)
          have answer := fits _ mem_cons_self
          have waiting := answer.not_complete fit valid absent
          rw [ObjectiveState.answered, if_neg (by simp [waiting])] at stored
          have step : react digest s (.checkFinished objective evaluation check tested sample
            output) = _ := react_answer stored isOpen answer absent
          rw [run_cons, step, addAll_cons]
          obtain ⟨_, defined, inRange, accepted⟩ := answer
          refine ih (State.get_put s objective _) (fit.add defined inRange accepted) ?_ others
            fun a member => fits a (mem_cons_of_mem _ member)
          intro other index
          rw [mem_cons, sees, mem_received_add, or_comm]
      · have answers : answersTo key id revision (.checkFinished objective evaluation check tested
            sample output :: rest : List (Event F H)) = answersTo key id revision rest := by
          simp [answersTo, own]
        rw [answers] at fits ⊢
        exact ih (react_elsewhere stored fun same => absurd same own) fit sees others fits
    | _ => cases result

/-! ## Results by sample index -/

/-- The results of the definition's checks when run `index` of check `id` answers
`output id index`: each check combines its samples in index order. -/
def answerResults (definition : ObjectiveDefinition F)
    (output : CheckId → Nat → SampleOutput F) : Results F :=
  ExtTreeMap.ofList <| definition.checks.filterMap fun check =>
    (check.config.combine ((range check.config.samples).map (output check.id))).map (check.id, ·)

theorem combineAll_answers {output : CheckId → Nat → SampleOutput F}
    (valid : definition.validate = []) (distinct : (answers.map Answer.run).Nodup)
    (runs : ∀ a, a ∈ answers ↔ a.output = output a.check a.sample ∧
      ∃ check ∈ definition.checks, check.id = a.check ∧ a.sample < check.config.samples) :
    combineAll definition ((∅ : Samples F).addAll answers) = answerResults definition output := by
  unfold combineAll answerResults
  congr 1
  refine filterMap_congr fun check member => ?_
  have stored : ∀ index value,
      (((∅ : Samples F).addAll answers).received check.id)[index]? = some value ↔
        index < check.config.samples ∧ value = output check.id index := by
    intro index value
    rw [getElem?_received_addAll distinct, runs]
    simp only [received_eq, ExtTreeMap.getElem?_empty, Option.getD_none, reduceCtorEq,
      false_and, or_false]
    constructor
    · rintro ⟨rfl, found, foundMember, same, below⟩
      have equal := inj_on_of_nodup_map (ObjectiveDefinition.checks_nodup valid) foundMember
        member same
      exact ⟨equal ▸ below, rfl⟩
    · rintro ⟨below, rfl⟩
      exact ⟨rfl, check, member, rfl, below⟩
  have values := toList_eq_range stored
  cases found : ((∅ : Samples F).addAll answers)[check.id]? with
  | none =>
    -- A check takes at least one sample, so its entry exists.
    have first := (stored 0 _).mpr ⟨definition.samples_pos valid member, rfl⟩
    rw [received_eq, found] at first
    simp at first
  | some received =>
    rw [received_eq, found, Option.getD_some] at values
    have samples : received.toList.map (·.2) =
        (range check.config.samples).map (output check.id) := by
      rw [values, map_map]
      rfl
    simp only [Option.bind_eq_bind, Option.bind_some, samples]
    cases check.config.combine ((range check.config.samples).map (output check.id)) <;> rfl

/-! ## Arrival order -/

/-- The notice that an evaluation is ready. -/
def Intent.isReady : Intent F H → Bool
  | .notify (.evaluationReady ..) => true
  | _ => false

/-- What does not depend on the order in which `answers` arrive, and what their
arrival reports. -/
structure OrderFree (digest : Canonical F → H) (s : State F H) (key : ObjectiveKey)
    (o : ObjectiveState F H) (id : EvaluationId) (revision : Revision) (samples : Samples F)
    (answers : List (Answer F)) : Prop where
  state : ∀ answers', answers.Perm answers' →
    run (react digest) s (answers'.map (Answer.event key id revision)) =
      run (react digest) s (answers.map (Answer.event key id revision))
  once : (outputs (react digest) s
    (answers.map (Answer.event key id revision))).countP Intent.isReady ≤ 1
  ready : (outputs (react digest) s
      (answers.map (Answer.event key id revision))).countP Intent.isReady = 1 ↔
    Covers o.definition samples answers
  /-- The last answer is the one that reports it. -/
  last : Covers o.definition samples answers → ∃ init final, answers = init ++ [final] ∧
    (outputs (react digest) s (init.map (Answer.event key id revision))).countP Intent.isReady = 0 ∧
    (react digest (run (react digest) s (init.map (Answer.event key id revision)))
      (final.event key id revision)).2.countP Intent.isReady = 1

omit [DecidableEq H] in
theorem countP_readyNotice :
    (o.readyNotice key id revision samples).countP Intent.isReady =
      if complete o.definition samples then 1 else 0 := by
  unfold ObjectiveState.readyNotice
  split <;> rfl

theorem OrderFree.of_fresh (stored : s.objectives[key]? = some (o.collect id revision samples))
    (isOpen : o.status = .open) (valid : o.definition.validate = [])
    (fit : SamplesFit o.definition samples) (waiting : complete o.definition samples = false)
    (fresh : Fresh o.definition samples answers) :
    OrderFree digest s key o id revision samples answers := by
  have covers := complete_addAll_iff fit valid fresh.fits
  obtain ⟨final, intents⟩ : _ ∧ outputs (react digest) s _ = _ :=
    run_answers stored isOpen valid fit waiting fresh
  have count : (outputs (react digest) s
      (answers.map (Answer.event key id revision))).countP Intent.isReady =
        if complete o.definition (samples.addAll answers) then 1 else 0 := by
    rw [intents, countP_readyNotice]
  refine ⟨?_, ?_, ?_, ?_⟩
  · intro answers' perm
    obtain ⟨final', -⟩ := run_answers stored isOpen valid fit waiting (fresh.of_perm perm)
    rw [final, final', addAll_perm samples fresh.distinct perm]
  · rw [count]
    split <;> decide
  · rw [count, ← covers]
    split <;> simp_all
  · intro covered
    rcases eq_nil_or_concat' answers with rfl | ⟨init, last, rfl⟩
    · rw [← covers, addAll_nil, waiting] at covered
      cases covered
    · obtain ⟨freshInit, lastFits, lastAbsent⟩ := fresh.concat
      have waitingInit := lastFits.not_complete (fit.addAll freshInit.fits) valid lastAbsent
      obtain ⟨-, intentsInit⟩ : _ ∧ outputs (react digest) s _ = _ :=
        run_answers stored isOpen valid fit waiting freshInit
      have silent : (outputs (react digest) s
          (init.map (Answer.event key id revision))).countP Intent.isReady = 0 := by
        rw [intentsInit, countP_readyNotice, if_neg (by simp [waitingInit])]
      refine ⟨init, last, rfl, silent, ?_⟩
      rw [if_pos (covers.mpr covered), map_append, outputs_append, countP_append,
        silent, Nat.zero_add] at count
      simpa using count

/-- A stream that answers every run of a new evaluation makes it ready, with the
results that the answers have by index. -/
theorem ready_of_answered {output : CheckId → Nat → SampleOutput F}
    (stored : s.objectives[key]? = some o) (started : o.evaluation = some (.running id revision ∅))
    (isOpen : o.status = .open) (valid : o.definition.validate = [])
    (accepted : ∀ check ∈ o.definition.checks, ∀ index < check.config.samples,
      check.config.accepts (output check.id index) = true)
    (results : ∀ event ∈ events, event.isCheckFinished = true)
    (answers : ∀ a, a ∈ firstAnswers [] (answersTo key id revision events) ↔
      a.output = output a.check a.sample ∧
        ∃ check ∈ o.definition.checks, check.id = a.check ∧ a.sample < check.config.samples) :
    ∃ o', (run (react digest) s events).objectives[key]? = some o' ∧
      o'.evaluation = some (.ready id revision (answerResults o.definition output)
        (o.judge (answerResults o.definition output))) := by
  have fits : ∀ a ∈ firstAnswers [] (answersTo key id revision events), a.Fits o.definition := by
    intro a member
    obtain ⟨same, check, checkMember, own, below⟩ := (answers a).mp member
    refine ⟨check, own ▸ ObjectiveDefinition.check_of_mem valid checkMember, below, ?_⟩
    rw [same, ← own]
    exact accepted check checkMember a.sample below
  have empty : complete o.definition (∅ : Samples F) = false :=
    eq_false_of_ne_true fun full =>
      (complete_iff_not_lacks (.empty _) valid).mp full (.of_empty valid)
  have unanswered : o = o.answered id revision ∅ := by
    rw [ObjectiveState.answered, if_neg (by simp [empty]), ObjectiveState.collect, ← started]
  have full : complete o.definition
      ((∅ : Samples F).addAll (firstAnswers [] (answersTo key id revision events))) = true := by
    rw [complete_addAll_iff (.empty _) valid fits]
    intro check member index below
    exact .inr ⟨⟨check.id, index, output check.id index⟩,
      (answers _).mpr ⟨rfl, check, member, rfl, below⟩, rfl⟩
  refine ⟨_, run_interleaved (unanswered ▸ stored) isOpen valid (.empty _)
    (by simp [received_eq]) results fits, ?_⟩
  rw [ObjectiveState.answered, if_pos full, ObjectiveState.conclude,
    combineAll_answers valid (firstAnswers_distinct [] _).1 answers]

/-- **Sample arrival order does not matter.**  Fresh answers to a running
evaluation of a reachable state leave the same state in any order, and the one
that completes the samples, which is the last, reports the evaluation ready.
Answering every check run that the start of an evaluation asks for, in any order
and among results for other evaluations and repeated ones, makes it ready with
the results of those answers. -/
theorem arrival_order (injective : Function.Injective digest) {s : State F H}
    (reachable : Reachable (react digest) State.default s) :
    (∀ key o id revision samples answers, s.objectives[key]? = some o →
      o.evaluation = some (.running id revision samples) → Fresh o.definition samples answers →
        OrderFree digest s key o id revision samples answers) ∧
      ∀ event key id revision o (output : CheckId → Nat → SampleOutput F) events,
        (react digest s event).1.objectives[key]? = some o →
        (∃ check sample, .runCheck key id check revision sample ∈ (react digest s event).2) →
        (∀ check ∈ o.definition.checks, ∀ index < check.config.samples,
          check.config.accepts (output check.id index) = true) →
        (∀ result ∈ events, Event.isCheckFinished result = true) →
        (∀ a, a ∈ firstAnswers [] (answersTo key id revision events) ↔
          .runCheck key id a.check revision a.sample ∈ (react digest s event).2 ∧
            a.output = output a.check a.sample) →
        ∃ o', (run (react digest) (react digest s event).1 events).objectives[key]? =
            some o' ∧
          o'.evaluation = some (.ready id revision (answerResults o.definition output)
            (o.judge (answerResults o.definition output))) := by
  have soundOf : ∀ {s : State F H}, Reachable (react digest) State.default s →
      s.Sound digest := fun reachable => reachable.preserves (State.Sound digest)
    (fun _ event sound => State.Sound.react injective sound event) .default
  constructor
  · intro key o id revision samples answers stored running fresh
    have sound := soundOf reachable key o stored
    obtain ⟨fit, lacks⟩ := sound.running id revision samples running
    have same : o = o.collect id revision samples := by rw [ObjectiveState.collect, ← running]
    have waiting : complete o.definition samples = false :=
      eq_false_of_ne_true fun full => (complete_iff_not_lacks fit sound.valid).mp full lacks
    rw [same] at stored
    exact .of_fresh stored (sound.active (by rw [running]; rfl)).1 sound.valid fit waiting fresh
  · rintro event key _ _ o _ _ stored ⟨_, _, asked⟩ accepted results answers
    have named : s.Named := fun key o found =>
      ⟨(soundOf reachable key o found).own, (soundOf reachable key o found).valid⟩
    have sound := soundOf (reachable.step event) key o stored
    obtain ⟨_, -, rfl, launched, runs⟩ := react_asked named asked
    cases launched.symm.trans stored
    refine ready_of_answered stored rfl (sound.active rfl).1 sound.valid accepted results
      fun a => ?_
    rw [answers, runs, and_comm]
    rfl

end Running

/-- What the trial's checks answer. -/
def trialOutput (check : CheckId) (_ : Nat) : SampleOutput ℚ :=
  if check = ⟨"make"⟩ then .command ⟨0⟩ else .evaluator ⟨[], ⟨0, 0, 0⟩⟩

/-- Results for the trial's first evaluation, with a stale and a repeated one among them. -/
def trialResults : List (Event ℚ (Canonical ℚ)) :=
  [.checkFinished trial.key ⟨0⟩ ⟨"review"⟩ ⟨"r1"⟩ 1 (.evaluator ⟨[], ⟨0, 0, 0⟩⟩),
    .checkFinished trial.key ⟨7⟩ ⟨"make"⟩ ⟨"r0"⟩ 0 (.command ⟨1⟩),
    .checkFinished trial.key ⟨0⟩ ⟨"make"⟩ ⟨"r1"⟩ 0 (.command ⟨0⟩),
    .checkFinished trial.key ⟨0⟩ ⟨"review"⟩ ⟨"r1"⟩ 1 (.evaluator ⟨[], ⟨5, 0, 0⟩⟩),
    .checkFinished trial.key ⟨0⟩ ⟨"review"⟩ ⟨"r1"⟩ 0 (.evaluator ⟨[], ⟨0, 0, 0⟩⟩)]

theorem arrival_order_trial :
    ∃ o', (run (react id) (react id (run (react id) State.default trialApproved)
        (.requested trial.key ⟨"r1"⟩)).1 trialResults).objectives[trial.key]? = some o' ∧
      ∃ verdict, o'.evaluation =
        some (.ready ⟨0⟩ ⟨"r1"⟩ (answerResults trial trialOutput) verdict) := by
  have asked : (react id (run (react id) State.default trialApproved)
      (.requested trial.key ⟨"r1"⟩)).2 =
        [.runCheck trial.key ⟨0⟩ ⟨"make"⟩ ⟨"r1"⟩ 0, .runCheck trial.key ⟨0⟩ ⟨"review"⟩ ⟨"r1"⟩ 0,
          .runCheck trial.key ⟨0⟩ ⟨"review"⟩ ⟨"r1"⟩ 1] := by decide +kernel
  have answers : firstAnswers [] (answersTo trial.key ⟨0⟩ ⟨"r1"⟩ trialResults) =
      [⟨⟨"review"⟩, 1, .evaluator ⟨[], ⟨0, 0, 0⟩⟩⟩, ⟨⟨"make"⟩, 0, .command ⟨0⟩⟩,
        ⟨⟨"review"⟩, 0, .evaluator ⟨[], ⟨0, 0, 0⟩⟩⟩] := by decide +kernel
  have found : ((react id (run (react id) State.default trialApproved)
      (.requested trial.key ⟨"r1"⟩)).1.objectives[trial.key]?).map (·.definition) =
        some trial := by decide +kernel
  obtain ⟨o, stored, definition⟩ := Option.map_eq_some_iff.mp found
  obtain ⟨o', stored', ready⟩ :=
    (arrival_order Function.injective_id ⟨trialApproved, rfl⟩).2 (.requested trial.key ⟨"r1"⟩)
      trial.key ⟨0⟩ ⟨"r1"⟩ o trialOutput trialResults stored
      ⟨⟨"make"⟩, 0, by simp [asked]⟩
      (by rw [definition]; decide +kernel)
      (by decide +kernel)
      (by
        rintro ⟨_, _⟩
        rw [answers, asked]
        simp only [mem_cons, Answer.mk.injEq, Intent.runCheck.injEq, true_and,
          not_mem_nil, or_false]
        constructor
        · rintro (⟨rfl, rfl, rfl⟩ | ⟨rfl, rfl, rfl⟩ | ⟨rfl, rfl, rfl⟩) <;> decide
        · rintro ⟨⟨rfl, rfl⟩ | ⟨rfl, rfl⟩ | ⟨rfl, rfl⟩, rfl⟩ <;> decide)
  rw [definition] at ready
  exact ⟨o', stored', _, ready⟩

end NeigeCalm.Objective
