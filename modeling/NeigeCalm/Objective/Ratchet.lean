import Mathlib.Tactic.Linarith
import Mathlib.Tactic.Ring
import NeigeCalm.Objective.Kept

/-!
# A ratchet slips by its tolerance at most

A ratchet compares a candidate with the latest baseline only, so each kept revision may be worse
by the tolerance, and the losses add up.  They add up to no more than that: over exact numbers,
while a metric ratchet keeps its configuration and its baseline result, the baseline value after
`n` kept revisions is worse by `n` tolerances at most, and nothing but a kept revision moves it.
-/

namespace NeigeCalm.Objective

open Library List Option Machine ObjectiveDefinition

/-! ## The measured value -/

/-- The value a metric measured. -/
def CheckOutput.value? {F : Type} : CheckOutput F → Option F
  | .metric output => some output.value
  | _ => none

/-- The value of check `id` in the baseline. -/
def ObjectiveState.baselineValue {F H : Type} (o : ObjectiveState F H) (id : CheckId) : Option F :=
  (o.ledger.resultsInForce[id]?).bind CheckOutput.value?

/-- How much worse `after` is than `before`. -/
def Direction.loss : Direction → ℚ → ℚ → ℚ
  | .higher, before, after => before - after
  | .lower, before, after => after - before

@[simp] theorem Direction.loss_self (direction : Direction) (value : ℚ) :
    direction.loss value value = 0 := by
  cases direction <;> simp [loss]

theorem Direction.loss_add (direction : Direction) (first second third : ℚ) :
    direction.loss first second + direction.loss second third = direction.loss first third := by
  cases direction <;> simp only [loss] <;> ring

/-- The tolerance in force: absent means exact comparison. -/
def MetricParams.slack (params : MetricParams ℚ) : ℚ := params.tolerance.getD 0

/-- The gain the comparison looks at is the loss, seen from the other side. -/
theorem MetricParams.compare_trend (params : MetricParams ℚ) (baseline candidate : MetricOutput ℚ) :
    (params.compare baseline candidate).trend =
      if params.slack < -params.direction.loss baseline.value candidate.value then .better
      else if params.slack < params.direction.loss baseline.value candidate.value then .worse
      else .same := by
  cases direction : params.direction <;>
    simp [compare, direction, Direction.loss, slack, Scalar.sub, Scalar.neg, Scalar.lt, Scalar.zero,
      sub_lt_iff_lt_add, lt_sub_iff_add_lt, lt_neg_add_iff_add_lt]

theorem MetricParams.slack_nonneg {params : MetricParams ℚ} (valid : params.validate = []) :
    0 ≤ params.slack := by
  unfold slack
  cases tolerance : params.tolerance with
  | none => exact le_refl 0
  | some t =>
    simp only [validate, append_eq_nil_iff, tolerance] at valid
    have nonneg : isBlank params.command = false ∧ 0 ≤ t := by
      simpa [Scalar.isFinite, Scalar.lt, Scalar.zero] using valid
    exact nonneg.2

/-- What does not compare as worse lost no more than the tolerance. -/
theorem MetricParams.loss_le_of_compare {params : MetricParams ℚ} (valid : params.validate = [])
    (held : (params.compare baseline candidate).trend ≠ .worse) :
    params.direction.loss baseline.value candidate.value ≤ params.slack := by
  by_contra lost
  have nonneg := slack_nonneg valid
  apply held
  rw [compare_trend, if_neg (by linarith), if_pos (by linarith)]

/-! ## What an event does to it -/

/-- How many of the entries were kept: settled as keep or done. -/
def keptCount {F : Type} (entries : List (LedgerEntry F)) : Nat :=
  entries.countP (·.decision ≠ .discard)

section Step

variable {H : Type} [DecidableEq H]
  {key : ObjectiveKey} {event : Event ℚ H} {o o' : ObjectiveState ℚ H} {id : CheckId}
  {params : MetricParams ℚ}

/-- The objective has the metric ratchet `id`, and a baseline value for it. -/
structure ObjectiveState.Ratchets (o : ObjectiveState ℚ H) (id : CheckId) (params : MetricParams ℚ)
    (value : ℚ) : Prop where
  defined : o.definition.check id = some ⟨id, .ratchet, .metric params⟩
  measured : o.baselineValue id = some value

theorem keptBaseline_of_discarded {F : Type} {baseline : Option (Baseline F)}
    {entries : List (LedgerEntry F)} (none : keptCount entries = 0) :
    keptBaseline baseline entries = baseline := by
  induction entries with
  | nil => rfl
  | cons entry _ ih =>
    simp only [keptCount, countP_eq_zero, forall_mem_cons] at none
    have discarded : entry.decision = .discard := by simpa using none.1
    rw [keptBaseline, foldl_cons, if_pos discarded]
    exact ih (countP_eq_zero.mpr none.2)

omit [DecidableEq H] in
theorem ObjectiveState.Ratchets.result (ratchets : o.Ratchets id params value) :
    o.ledger.resultsInForce[id]? = some (.metric ⟨value⟩) := by
  have measured := ratchets.measured
  unfold ObjectiveState.baselineValue at measured
  obtain ⟨output, stored, isValue⟩ := bind_eq_some_iff.mp measured
  cases output with
  | metric =>
    cases isValue
    exact stored
  | command | evaluator | fact => cases isValue

/-- A result left by a redefinition is one the full baseline had. -/
theorem Pruned.resultsInForce {ledger : Ledger ℚ} (pruned : Pruned full ledger.baseline)
    (stored : ledger.resultsInForce[id]? = some output) :
    ((full.map (·.results)).getD ∅)[id]? = some output := by
  unfold Ledger.resultsInForce Ledger.baselineResults at stored
  cases left : ledger.baseline with
  | none => simp [left] at stored
  | some =>
    cases full with
    | none => simp [Pruned, left] at pruned
    | some =>
      simp only [Pruned, left] at pruned
      simp only [left, map_some, getD_some] at stored ⊢
      exact pruned.2 id output stored

/-- An event appends one entry to the ledger at most: the settle it records. -/
theorem Change.entries (change : Change digest usage key event o o' occurrences) :
    o'.ledger.entries = o.ledger.entries ∨
      ∃ evaluation entry, event = .settled key evaluation entry.decision entry.note ∧
        o'.ledger.entries = o.ledger.entries ++ [entry] := by
  cases change with
  | settled _ _ recorded =>
    exact .inr ⟨_, _, rfl, (Ledger.settle_ok recorded).2.2.1⟩
  | _ => exact .inl rfl

/-- The value of a kept candidate against the baseline it was judged by. -/
theorem KeptSound.loss_le {definition : ObjectiveDefinition ℚ}
    (kept : KeptSound definition baseline entry) (valid : definition.validate = [])
    (defined : definition.check id = some ⟨id, .ratchet, .metric params⟩)
    (before : baseline[id]? = some (.metric ⟨value⟩))
    (after : entry.results[id]? = some (.metric ⟨value'⟩)) :
    params.direction.loss value value' ≤ params.slack := by
  obtain ⟨member, _⟩ := check_mem defined
  obtain ⟨_, comparison, stored, compared, held⟩ := kept.ratchets _ member rfl _ before
  cases after.symm.trans stored
  obtain rfl : params.compare ⟨value⟩ ⟨value'⟩ = comparison := some.inj compared
  have clean := config_of_checksDiagnostics
    (checksDiagnostics_of_validate valid) _ member
  exact MetricParams.loss_le_of_compare clean held

omit [DecidableEq H] in
theorem ObjectiveState.Ratchets.slack_nonneg {value : ℚ} (ratchets : o.Ratchets id params value)
    (valid : o.definition.validate = []) : 0 ≤ params.slack := by
  obtain ⟨member, _⟩ := check_mem ratchets.defined
  have clean := config_of_checksDiagnostics
    (checksDiagnostics_of_validate valid) _ member
  exact MetricParams.slack_nonneg clean

/-- **One event.**  While the ratchet stands, only a settle that keeps a revision moves its
baseline value, and then by no more than the tolerance against its direction. -/
theorem Change.moves (sound : o.Sound digest key)
    (change : Change digest usage key event o o' occurrences)
    {value value' : ℚ} (before : o.Ratchets id params value)
    (after : o'.Ratchets id params value') :
    value' = value ∨ ∃ evaluation entry, entry.decision ≠ .discard ∧
      event = .settled key evaluation entry.decision entry.note ∧
      o'.ledger.entries = o.ledger.entries ++ [entry] ∧
      params.direction.loss value value' ≤ params.slack := by
  obtain ⟨entries, appended, pruned, -⟩ := change.ledger
  have left := pruned.resultsInForce after.result
  by_cases none : keptCount entries = 0
  · -- discarded entries leave the baseline, and what a redefinition drops is not this result
    rw [keptBaseline_of_discarded none] at left
    exact .inl (by simpa using left.symm.trans before.result)
  · obtain ⟨evaluation, entry, settled, single⟩ : ∃ evaluation entry,
        event = .settled key evaluation entry.decision entry.note ∧
          o'.ledger.entries = o.ledger.entries ++ [entry] := by
      rcases change.entries with same | settled
      · have empty : entries = [] := by simpa [same] using appended
        exact absurd (by simp [empty, keptCount]) none
      · exact settled
    obtain rfl : entries = [entry] := append_cancel_left (appended.symm.trans single)
    have kept : entry.decision ≠ .discard := by
      intro discarded
      exact none (by simp [keptCount, discarded])
    obtain ⟨keptSound, baseline⟩ := change.appended sound single kept
    have own : entry.results[id]? = some (.metric ⟨value'⟩) := by
      have result := after.result
      rwa [Ledger.resultsInForce, Ledger.baselineResults, baseline] at result
    exact .inr ⟨evaluation, entry, kept, settled, single,
      keptSound.loss_le sound.valid before.defined before.result own⟩

theorem Change.slip (sound : o.Sound digest key)
    (change : Change digest usage key event o o' occurrences)
    (before : o.Ratchets id params value) (after : o'.Ratchets id params value') :
    ∃ entries, o'.ledger.entries = o.ledger.entries ++ entries ∧
      params.direction.loss value value' ≤ keptCount entries * params.slack := by
  rcases change.moves sound before after with same | ⟨_, entry, kept, _, single, lost⟩
  · obtain ⟨entries, appended, _⟩ := change.ledger
    have nonneg := before.slack_nonneg sound.valid
    exact ⟨entries, appended, by rw [same, Direction.loss_self]; positivity⟩
  · exact ⟨[entry], single, by simpa [keptCount, kept] using lost⟩

/-- Losses add up as the kept revisions do. -/
theorem loss_trans (before : params.direction.loss first second ≤ keptCount entries * params.slack)
    (after : params.direction.loss second third ≤ keptCount entries' * params.slack) :
    params.direction.loss first third ≤ keptCount (entries ++ entries') * params.slack :=
  calc params.direction.loss first third
      = params.direction.loss first second + params.direction.loss second third :=
        (params.direction.loss_add ..).symm
    _ ≤ keptCount entries * params.slack + keptCount entries' * params.slack :=
        add_le_add before after
    _ = keptCount (entries ++ entries') * params.slack := by
        rw [keptCount, keptCount, keptCount, countP_append]
        push_cast
        ring

end Step

/-! ## Whole runs -/

section Run

variable {H : Type} [DecidableEq H] (digest : Canonical ℚ → H) (key : ObjectiveKey) (id : CheckId)
  (params : MetricParams ℚ)

/-- Throughout the run the objective has this ratchet and a baseline value for it. -/
def Steady (s : State ℚ H) (events : List (Event ℚ H)) : Prop :=
  ∀ first rest, events = first ++ rest →
    ∃ o value, (run (react digest) s first).objectives[key]? = some o ∧
      o.Ratchets id params value

variable {digest key id params}

theorem Steady.here (steady : Steady digest key id params s events) :
    ∃ o value, s.objectives[key]? = some o ∧ o.Ratchets id params value :=
  steady [] events rfl

theorem Steady.later (steady : Steady digest key id params s (first ++ rest)) :
    Steady digest key id params (run (react digest) s first) rest := by
  intro second third split
  rw [← run_append]
  exact steady (first ++ second) third (by rw [split, append_assoc])

theorem Steady.earlier (steady : Steady digest key id params s (first ++ rest)) :
    Steady digest key id params s first := by
  intro second third split
  exact steady second (third ++ rest) (by rw [split, append_assoc])

/-- One event of a steady run. -/
theorem Steady.step (steady : Steady digest key id params s [event])
    (stored : s.objectives[key]? = some o) :
    ∃ o' value' occurrences, (react digest s event).1.objectives[key]? = some o' ∧
      o'.Ratchets id params value' ∧ Change digest s.usage key event o o' occurrences := by
  obtain ⟨o', value', stored', ratchets'⟩ := steady [event] [] rfl
  obtain ⟨_, _, after, change⟩ := react_changed digest event stored
  cases after.symm.trans stored'
  exact ⟨o', value', _, stored', ratchets', change⟩

theorem run_slip (injective : Function.Injective digest)
    (steady : Steady digest key id params s events) (sound : s.Sound digest)
    (stored : s.objectives[key]? = some o) (ratchets : o.Ratchets id params value) :
    ∃ o' value' entries, (run (react digest) s events).objectives[key]? = some o' ∧
      o'.Ratchets id params value' ∧ o'.ledger.entries = o.ledger.entries ++ entries ∧
      params.direction.loss value value' ≤ keptCount entries * params.slack := by
  induction events generalizing s o value with
  | nil => exact ⟨o, value, [], stored, ratchets, by simp, by simp [keptCount]⟩
  | cons event rest ih =>
    have split : Steady digest key id params s ([event] ++ rest) := steady
    obtain ⟨_, _, _, stored', ratchets', change⟩ := split.earlier.step stored
    obtain ⟨entries, appended, slip⟩ := change.slip (sound key o stored) ratchets ratchets'
    obtain ⟨last, value'', entries', storedLast, ratchetsLast, appended', slip'⟩ :=
      ih split.later (State.Sound.react injective sound event) stored' ratchets'
    refine ⟨last, value'', entries ++ entries', storedLast, ratchetsLast, ?_, loss_trans slip slip'⟩
    rw [appended', appended, append_assoc]

/-- **A ratchet never slips beyond its tolerance budget.**  In a run from a reachable state that
keeps the ratchet and its baseline result: one event costs the tolerance at most, and only a
recorded settle that keeps a revision moves the value; between any two moments the value is worse
by one tolerance for each revision kept at most; and without tolerance it never gets worse. -/
theorem ratchet_slip (injective : Function.Injective digest)
    (reachable : Reachable (react digest) State.default s) {events : List (Event ℚ H)}
    (steady : Steady digest key id params s events) :
    (∀ first event rest, events = first ++ event :: rest →
      ∃ o o' value value', (run (react digest) s first).objectives[key]? = some o ∧
        (run (react digest) s (first ++ [event])).objectives[key]? = some o' ∧
        o.baselineValue id = some value ∧ o'.baselineValue id = some value' ∧
        params.direction.loss value value' ≤ params.slack ∧
        (value' ≠ value → ∃ evaluation entry, entry.decision ≠ .discard ∧
          event = .settled key evaluation entry.decision entry.note ∧
          o'.ledger.entries = o.ledger.entries ++ [entry])) ∧
      ∀ first middle rest, events = first ++ (middle ++ rest) →
        ∃ o o' value value' entries,
          (run (react digest) s first).objectives[key]? = some o ∧
          (run (react digest) s (first ++ middle)).objectives[key]? = some o' ∧
          o.baselineValue id = some value ∧ o'.baselineValue id = some value' ∧
          o'.ledger.entries = o.ledger.entries ++ entries ∧
          params.direction.loss value value' ≤ keptCount entries * params.slack ∧
          (params.slack = 0 → params.direction.loss value value' ≤ 0) := by
  have sound (first : List (Event ℚ H)) : (run (react digest) s first).Sound digest :=
    (Reachable.preserves (State.Sound digest)
      (fun _ event sound => State.Sound.react injective sound event) .default reachable).run
        injective first
  constructor
  · intro first event rest split
    have here : Steady digest key id params (run (react digest) s first) ([event] ++ rest) :=
      Steady.later (split ▸ steady)
    obtain ⟨o, value, stored, ratchets⟩ := here.here
    obtain ⟨o', value', _, stored', ratchets', change⟩ := here.earlier.step stored
    have moves := change.moves (sound first key o stored) ratchets ratchets'
    rw [run_append]
    refine ⟨o, o', value, value', stored, stored', ratchets.measured, ratchets'.measured, ?_, ?_⟩
    · rcases moves with same | ⟨_, _, _, _, _, lost⟩
      · rw [same, Direction.loss_self]
        exact ratchets.slack_nonneg (sound first key o stored).valid
      · exact lost
    · intro moved
      rcases moves with same | ⟨evaluation, entry, kept, settled, single, _⟩
      · exact absurd same moved
      · exact ⟨evaluation, entry, kept, settled, single⟩
  · intro first middle rest split
    have here : Steady digest key id params (run (react digest) s first) (middle ++ rest) :=
      Steady.later (split ▸ steady)
    obtain ⟨o, value, stored, ratchets⟩ := here.here
    obtain ⟨o', value', entries, stored', ratchets', appended, slip⟩ :=
      run_slip injective here.earlier (sound first) stored ratchets
    rw [run_append]
    refine ⟨o, o', value, value', entries, stored, stored', ratchets.measured,
      ratchets'.measured, appended, slip, fun exact => ?_⟩
    simpa [exact] using slip

/-- A run is steady if the ratchet and a value for it are found after each of its events. -/
theorem Steady.of_take (found : ∀ count ∈ range (events.length + 1),
      ((run (react digest) s (events.take count)).objectives[key]?).any (fun o =>
        decide (o.definition.check id = some ⟨id, .ratchet, .metric params⟩) &&
          (o.baselineValue id).isSome) = true) : Steady digest key id params s events := by
  intro first rest split
  have here := found first.length (mem_range.mpr (by rw [split, length_append]; omega))
  rw [split, take_left, Option.any_eq_true] at here
  obtain ⟨o, stored, both⟩ := here
  rw [Bool.and_eq_true, decide_eq_true_iff] at both
  obtain ⟨value, measured⟩ := isSome_iff_exists.mp both.2
  exact ⟨o, value, stored, both.1, measured⟩

end Run

/-! ## A small run -/

def timing : MetricParams ℚ :=
  { command := "bench", direction := .lower, tolerance := some (1 / 2) }

/-- One objective that times a command. -/
def timed : ObjectiveDefinition ℚ :=
  { key := ⟨"speed"⟩
    title := "Keep it fast"
    mode := .loop 3
    checks := [⟨⟨"bench"⟩, .ratchet, .metric timing⟩]
    constraints := []
    budget := ⟨10, 1000, 60⟩
    compact := .none }

/-- Evaluation `sequence` of `revision` measures `value` and is kept. -/
def timedKeep (sequence : Nat) (revision : String) (value : ℚ) : List (Event ℚ (Canonical ℚ)) :=
  [.requested timed.key ⟨revision⟩,
    .checkFinished timed.key ⟨sequence⟩ ⟨"bench"⟩ ⟨revision⟩ 0 (.metric ⟨value⟩),
    .settled timed.key ⟨sequence⟩ .keep "kept"]

def timedFirst : List (Event ℚ (Canonical ℚ)) :=
  .definitionChanged timed :: .approvalGranted timed.key ⟨timed.canonical, "owner"⟩ ::
    timedKeep 0 "r1" 10

theorem ratchet_slip_trial :
    ∃ o o' value value' entries,
      (run (react id) State.default timedFirst).objectives[timed.key]? = some o ∧
      (run (react id) (run (react id) State.default timedFirst)
        (timedKeep 1 "r2" (21 / 2))).objectives[timed.key]? = some o' ∧
      o.baselineValue ⟨"bench"⟩ = some value ∧ o'.baselineValue ⟨"bench"⟩ = some value' ∧
      o'.ledger.entries = o.ledger.entries ++ entries ∧
      timing.direction.loss value value' ≤ keptCount entries * timing.slack := by
  have steady : Steady id timed.key ⟨"bench"⟩ timing (run (react id) State.default timedFirst)
      (timedKeep 1 "r2" (21 / 2)) := Steady.of_take (by decide +kernel)
  obtain ⟨o, o', value, value', entries, stored, stored', measured, measured', appended, lost, _⟩ :=
    (ratchet_slip Function.injective_id ⟨timedFirst, rfl⟩ steady).2 []
      (timedKeep 1 "r2" (21 / 2)) []
      (by simp)
  exact ⟨o, o', value, value', entries, stored, stored', measured, measured', appended, lost⟩

end NeigeCalm.Objective
