import Mathlib.Data.List.Sort
import Mathlib.Algebra.Order.Ring.Rat
import Std.Data.ExtTreeMap
import NeigeCalm.Library.Text

/-!
# Check kinds and their registry

A check kind owns its parameters, its output and how a candidate output
compares with a baseline output.  `CheckConfig`, `SampleOutput` and
`CheckOutput` are the registry: the only place that dispatches on the kind.

Metric values and tolerances are `f64` in the source.  The model is generic in
the number type: `Scalar` has exactly the operations the metric checks use, so
every result about the engine holds of IEEE doubles and of exact rationals
alike.
-/

namespace NeigeCalm.Objective

open Library List Std

/-! ## Identifiers -/

/-- Stable key of one objective, unique within a state. -/
structure ObjectiveKey where
  value : String
  deriving DecidableEq

/-- Id of one check, unique within its objective. -/
structure CheckId where
  value : String
  deriving DecidableEq

/-- A workspace revision the host can evaluate. -/
structure Revision where
  value : String
  deriving DecidableEq

/-- Position of one evaluation among those its objective has started. -/
structure EvaluationId where
  sequence : Nat
  deriving DecidableEq

instance : Ord ObjectiveKey := ⟨compareOn ObjectiveKey.value⟩

instance : TransOrd ObjectiveKey :=
  inferInstanceAs (TransCmp (compareOn ObjectiveKey.value))

instance : LawfulEqOrd ObjectiveKey where
  eq_of_compare {a b} same := by
    cases a
    cases b
    exact congrArg _ (LawfulEqOrd.eq_of_compare (α := String) same)

instance : Ord CheckId := ⟨compareOn CheckId.value⟩

instance : TransOrd CheckId :=
  inferInstanceAs (TransCmp (compareOn CheckId.value))

instance : LawfulEqOrd CheckId where
  eq_of_compare {a b} same := by
    cases a
    cases b
    exact congrArg _ (LawfulEqOrd.eq_of_compare (α := String) same)

/-! ## Problems a validation reports -/

inductive BudgetLimit where
  | turns
  | tokens
  | wallSecs
  deriving DecidableEq

/-- The closed set of problems validation reports. -/
inductive Problem where
  | emptyKey
  | emptyTitle
  | noChecks
  | emptyCheckId
  | duplicateCheckId
  | convergeWithoutGoal
  | loopWithoutRatchet
  | zeroPlateau
  | zeroBudget (limit : BudgetLimit)
  | emptyConstraint
  | emptyCommand
  | invalidTolerance
  | zeroSamples
  | emptyRubric
  | emptyRubricItem
  | duplicateRubricItem (item : String)
  | emptyFactSubject
  deriving DecidableEq

/-- One validation problem, located by a dotted path. -/
structure Diagnostic where
  path : String
  problem : Problem
  deriving DecidableEq

/-! ## Trends and comparisons -/

/-- Direction of a candidate relative to its baseline, worst first. -/
inductive Trend where
  | worse
  | same
  | better
  deriving DecidableEq

/-- Position in the derived order: `Worse < Same < Better`. -/
def Trend.rank : Trend → Nat
  | .worse => 0
  | .same => 1
  | .better => 2

instance : LinearOrder Trend :=
  LinearOrder.lift' Trend.rank (by intro a b; cases a <;> cases b <;> simp [Trend.rank])

/-- Fail to pass improves, pass to fail regresses. -/
def Trend.between (baselinePassed candidatePassed : Bool) : Trend :=
  match baselinePassed, candidatePassed with
  | false, true => .better
  | true, false => .worse
  | _, _ => .same

/-- `impl From<Ordering> for Trend`: `gt` means the candidate is ahead. -/
def Trend.ofOrdering : Ordering → Trend
  | .lt => .worse
  | .eq => .same
  | .gt => .better

/-- The result of comparing one candidate output with its baseline. -/
structure Comparison where
  trend : Trend
  passed : Bool
  deriving DecidableEq

/-! ## Command checks -/

structure CommandParams where
  command : String
  deriving DecidableEq

structure CommandOutput where
  exitCode : Int
  deriving DecidableEq

def CommandOutput.passed (output : CommandOutput) : Bool := output.exitCode == 0

def CommandParams.validate (params : CommandParams) : List Problem :=
  if isBlank params.command then [.emptyCommand] else []

def CommandParams.compare (_ : CommandParams) (baseline candidate : CommandOutput) : Comparison :=
  { trend := Trend.between baseline.passed candidate.passed
    passed := candidate.passed }

/-! ## Fact checks -/

/-- The closed set of facts a host can report. -/
inductive Fact where
  | taskAccepted
  | prMerged
  | askAnswered
  deriving DecidableEq

structure FactParams where
  fact : Fact
  subject : String
  deriving DecidableEq

structure FactOutput where
  holds : Bool
  deriving DecidableEq

def FactParams.validate (params : FactParams) : List Problem :=
  if isBlank params.subject then [.emptyFactSubject] else []

def FactParams.compare (_ : FactParams) (baseline candidate : FactOutput) : Comparison :=
  { trend := Trend.between baseline.holds candidate.holds
    passed := candidate.holds }

/-! ## Metric checks -/

/-- The operations of the source's `f64` that metric checks use.  `eq` is
`PartialEq`, which need not be reflexive. -/
class Scalar (F : Type) where
  zero : F
  sub : F → F → F
  neg : F → F
  lt : F → F → Bool
  eq : F → F → Bool
  isFinite : F → Bool

/-- Exact arithmetic. -/
instance : Scalar ℚ where
  zero := 0
  sub a b := a - b
  neg a := -a
  lt a b := decide (a < b)
  eq a b := decide (a = b)
  isFinite _ := true

/-- IEEE binary64 arithmetic, the source's own. -/
instance : Scalar Float where
  zero := 0
  sub a b := a - b
  neg a := -a
  lt a b := decide (a < b)
  eq a b := a == b
  isFinite a := a.isFinite

inductive Direction where
  | higher
  | lower
  deriving DecidableEq

structure MetricParams (F : Type) where
  command : String
  direction : Direction
  /-- Changes no larger than this count as unchanged; absent means exact comparison. -/
  tolerance : Option F
  deriving DecidableEq

structure MetricOutput (F : Type) where
  value : F
  deriving DecidableEq

section Metric

variable {F : Type} [Scalar F]

def MetricParams.validate (params : MetricParams F) : List Problem :=
  (if isBlank params.command then [.emptyCommand] else []) ++
    if params.tolerance.any fun t => !Scalar.isFinite t || Scalar.lt t Scalar.zero then
      [.invalidTolerance]
    else []

def MetricParams.compare (params : MetricParams F) (baseline candidate : MetricOutput F) :
    Comparison :=
  let gain := match params.direction with
    | .higher => Scalar.sub candidate.value baseline.value
    | .lower => Scalar.sub baseline.value candidate.value
  let tolerance := params.tolerance.getD Scalar.zero
  let trend : Trend :=
    if Scalar.lt tolerance gain then .better
    else if Scalar.lt gain (Scalar.neg tolerance) then .worse
    else .same
  { trend, passed := trend != .worse }

/-- The derived `PartialEq`. -/
def MetricParams.eq (a b : MetricParams F) : Bool :=
  a.command == b.command && a.direction == b.direction &&
    match a.tolerance, b.tolerance with
    | none, none => true
    | some s, some t => Scalar.eq s t
    | _, _ => false

end Metric

/-! ## Evaluator checks -/

structure RubricItem where
  id : String
  criterion : String
  deriving DecidableEq

/-- How the samples of one evaluation reduce to one trend per rubric item. -/
inductive Aggregate where
  | majority
  | median
  deriving DecidableEq

structure EvaluatorParams where
  rubric : List RubricItem
  samples : Nat
  aggregate : Aggregate
  deriving DecidableEq

/-- A source location an evaluator cites for a judgement. -/
structure Evidence where
  path : String
  line : Nat
  deriving DecidableEq

/-- One rubric item judged against the baseline. -/
structure Judgement where
  item : String
  trend : Trend
  evidence : List Evidence
  deriving DecidableEq

structure Findings where
  blocking : Nat
  major : Nat
  minor : Nat
  deriving DecidableEq

/-- What one evaluator run returned. -/
structure EvaluatorSample where
  judgements : List Judgement
  findings : Findings
  deriving DecidableEq

structure EvaluatorOutput where
  samples : List EvaluatorSample
  deriving DecidableEq

/-- The lower of the two middle values in sorted order. -/
def lowerMedian {α : Type} [LinearOrder α] (values : List α) : Option α :=
  (values.insertionSort (· ≤ ·))[(values.length - 1) / 2]?

/-- The trend more samples chose than any other; a tie is `same`. -/
def majority (trends : List Trend) : Trend :=
  let worse := trends.count .worse
  let same := trends.count .same
  let better := trends.count .better
  if worse < better ∧ same < better then .better
  else if better < worse ∧ same < worse then .worse
  else .same

/-- A judgement that claims a change without citing evidence, or a missing one,
counts as `same`. -/
def EvaluatorSample.trendFor (sample : EvaluatorSample) (item : String) : Trend :=
  match sample.judgements.find? (·.item == item) with
  | some judgement =>
    if judgement.trend = .same ∨ judgement.evidence ≠ [] then judgement.trend else .same
  | none => .same

/-- The per-severity lower median of the samples' findings; zero without samples. -/
def EvaluatorOutput.findings (output : EvaluatorOutput) : Findings :=
  let medianOf (severity : Findings → Nat) : Nat :=
    (lowerMedian (output.samples.map fun s => severity s.findings)).getD 0
  { blocking := medianOf (·.blocking), major := medianOf (·.major), minor := medianOf (·.minor) }

def EvaluatorOutput.trendFor (output : EvaluatorOutput) (item : String)
    (aggregate : Aggregate) : Trend :=
  let trends := output.samples.map (·.trendFor item)
  match aggregate with
  | .majority => Objective.majority trends
  | .median => (lowerMedian trends).getD .same

/-- One rubric item's problems, given the ids seen before it. -/
def RubricItem.problems (seen : List String) (item : RubricItem) : List Problem :=
  (if isBlank item.id || isBlank item.criterion then [.emptyRubricItem] else []) ++
    if seen.contains item.id then [.duplicateRubricItem item.id] else []

/-- The loop over the rubric, carrying the set of ids seen so far. -/
def rubricProblems (seen : List String) : List RubricItem → List Problem
  | [] => []
  | item :: rest => item.problems seen ++ rubricProblems (item.id :: seen) rest

def EvaluatorParams.validate (params : EvaluatorParams) : List Problem :=
  (if params.samples = 0 then [.zeroSamples] else []) ++
    (if params.rubric.isEmpty then [.emptyRubric] else []) ++
      rubricProblems [] params.rubric

/-- Any rubric item that aggregates to `worse`, or more blocking findings than
the baseline, regresses; otherwise an improved item or fewer blocking findings
improves.  It passes without blocking findings. -/
def EvaluatorParams.compare (params : EvaluatorParams) (baseline candidate : EvaluatorOutput) :
    Comparison :=
  if candidate.samples.isEmpty then
    { trend := .same, passed := false }
  else
    let before := baseline.findings
    let after := candidate.findings
    let trends := params.rubric.map (fun item => candidate.trendFor item.id params.aggregate) ++
      [Trend.ofOrdering (Ord.compare after.blocking before.blocking).swap]
    let trend : Trend :=
      if trends.contains .worse then .worse
      else if trends.contains .better then .better
      else .same
    { trend, passed := after.blocking == 0 }

/-! ## The registry -/

/-- The kind-specific configuration of one check. -/
inductive CheckConfig (F : Type) where
  | command (params : CommandParams)
  | metric (params : MetricParams F)
  | evaluator (params : EvaluatorParams)
  | fact (params : FactParams)
  deriving DecidableEq

/-- What one run of a check reports: exactly one sample. -/
inductive SampleOutput (F : Type) where
  | command (output : CommandOutput)
  | metric (output : MetricOutput F)
  | evaluator (sample : EvaluatorSample)
  | fact (output : FactOutput)
  deriving DecidableEq

/-- The result of one check in one evaluation, combined from its samples. -/
inductive CheckOutput (F : Type) where
  | command (output : CommandOutput)
  | metric (output : MetricOutput F)
  | evaluator (output : EvaluatorOutput)
  | fact (output : FactOutput)
  deriving DecidableEq

/-- The registered kinds. -/
inductive Kind where
  | command
  | metric
  | evaluator
  | fact
  deriving DecidableEq

section Registry

variable {F : Type}

def CheckConfig.kind : CheckConfig F → Kind
  | .command _ => .command
  | .metric _ => .metric
  | .evaluator _ => .evaluator
  | .fact _ => .fact

def CheckOutput.kind : CheckOutput F → Kind
  | .command _ => .command
  | .metric _ => .metric
  | .evaluator _ => .evaluator
  | .fact _ => .fact

/-- How many independent runs one evaluation of this check takes. -/
def CheckConfig.samples : CheckConfig F → Nat
  | .evaluator params => params.samples
  | .command _ | .metric _ | .fact _ => 1

/-- Whether `sample` was produced by this check's kind. -/
def CheckConfig.accepts : CheckConfig F → SampleOutput F → Bool
  | .command _, .command _ => true
  | .metric _, .metric _ => true
  | .evaluator _, .evaluator _ => true
  | .fact _, .fact _ => true
  | _, _ => false

/-- The evaluator sample an output carries; any other kind is a mismatch. -/
def SampleOutput.evaluatorRun : SampleOutput F → Option EvaluatorSample
  | .evaluator run => some run
  | _ => none

/-- Combines every sample of one evaluation, in sample order; `none` is the
source's `KindMismatch`. -/
def CheckConfig.combine (config : CheckConfig F) (samples : List (SampleOutput F)) :
    Option (CheckOutput F) :=
  if samples.length ≠ config.samples then none
  else match config with
    | .evaluator _ => (samples.mapM SampleOutput.evaluatorRun).map fun runs => .evaluator ⟨runs⟩
    | .command _ => match samples with
      | [.command output] => some (.command output)
      | _ => none
    | .metric _ => match samples with
      | [.metric output] => some (.metric output)
      | _ => none
    | .fact _ => match samples with
      | [.fact output] => some (.fact output)
      | _ => none

variable [Scalar F]

def CheckConfig.validate : CheckConfig F → List Problem
  | .command params => params.validate
  | .metric params => params.validate
  | .evaluator params => params.validate
  | .fact params => params.validate

/-- Compares two outputs of the check's kind; `none` is the source's `KindMismatch`. -/
def CheckConfig.compare : CheckConfig F → CheckOutput F → CheckOutput F → Option Comparison
  | .command params, .command baseline, .command candidate =>
    some (params.compare baseline candidate)
  | .metric params, .metric baseline, .metric candidate =>
    some (params.compare baseline candidate)
  | .evaluator params, .evaluator baseline, .evaluator candidate =>
    some (params.compare baseline candidate)
  | .fact params, .fact baseline, .fact candidate =>
    some (params.compare baseline candidate)
  | _, _, _ => none

/-- The derived `PartialEq`. -/
def CheckConfig.eq : CheckConfig F → CheckConfig F → Bool
  | .command a, .command b => a == b
  | .metric a, .metric b => a.eq b
  | .evaluator a, .evaluator b => a == b
  | .fact a, .fact b => a == b
  | _, _ => false

end Registry

/-! ## Kinds decide what is accepted, combined and compared -/

section Kinds

variable {F : Type}

/-- Accepted samples of the right number combine, to an output of the check's kind. -/
theorem CheckConfig.combine_of_accepts {config : CheckConfig F} {samples : List (SampleOutput F)}
    (length : samples.length = config.samples)
    (accepted : ∀ sample ∈ samples, config.accepts sample = true) :
    ∃ output, config.combine samples = some output ∧ output.kind = config.kind := by
  cases config with
  | evaluator =>
    have runs : ∃ runs, samples.mapM SampleOutput.evaluatorRun = some runs := by
      clear length
      induction samples with
      | nil => exact ⟨[], rfl⟩
      | cons sample _ ih =>
        obtain ⟨tail, tailRuns⟩ := ih fun s member => accepted s (mem_cons_of_mem _ member)
        have head := accepted sample mem_cons_self
        cases sample with
        | evaluator run =>
          exact ⟨run :: tail, by simp [mapM_cons, SampleOutput.evaluatorRun, tailRuns]⟩
        | command | metric | fact => simp [accepts] at head
    obtain ⟨runs, combined⟩ := runs
    exact ⟨.evaluator ⟨runs⟩, by simp [combine, length, combined], rfl⟩
  | command params | metric params | fact params =>
    obtain ⟨sample, rfl⟩ := length_eq_one_iff.mp length
    have head := accepted sample mem_cons_self
    cases sample <;> simp [accepts] at head
    exact ⟨_, by simp [combine, samples]; rfl, rfl⟩

variable [Scalar F]

/-- Outputs of the check's kind always compare. -/
theorem CheckConfig.compare_of_kind {config : CheckConfig F}
    (baselineKind : baseline.kind = config.kind) (candidateKind : candidate.kind = config.kind) :
    ∃ comparison, config.compare baseline candidate = some comparison := by
  cases config <;> cases baseline <;> cases candidate <;> simp_all [compare, kind, CheckOutput.kind]

theorem CheckConfig.kind_eq_of_eq {a b : CheckConfig F} (same : a.eq b = true) :
    a.kind = b.kind := by
  cases a <;> cases b <;> simp_all [CheckConfig.eq, kind]

/-- A validated check takes at least one sample. -/
theorem CheckConfig.samples_pos_of_validate {config : CheckConfig F}
    (valid : config.validate = []) : 0 < config.samples := by
  cases config with
  | evaluator params =>
    simp only [validate, EvaluatorParams.validate, append_eq_nil_iff] at valid
    have nonzero : params.samples ≠ 0 := by
      intro zero
      simp [zero] at valid
    exact Nat.pos_of_ne_zero nonzero
  | command | metric | fact => exact Nat.one_pos

end Kinds

end NeigeCalm.Objective
