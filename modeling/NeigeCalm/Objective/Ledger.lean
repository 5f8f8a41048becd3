import NeigeCalm.Objective.Definition

/-!
# Verdicts and the ledger

`keepable` judges a candidate's results against the baseline's: every invariant
must pass and no ratchet may regress.  The `Ledger` records the settled
candidates and holds the baseline, which moves only by a keep or a done.
-/

namespace NeigeCalm.Objective

open List

/-- One evaluation's results, by check. -/
abbrev Results (F : Type) := Std.ExtTreeMap CheckId (CheckOutput F)

inductive VerdictKind where
  | regression
  | discard
  | keepable
  | done
  deriving DecidableEq

/-- What one check contributed to a verdict. -/
inductive Finding where
  | compared (comparison : Comparison)
  | noBaseline (comparison : Comparison)
  | missing
  | kindMismatch
  deriving DecidableEq

def Finding.comparison : Finding → Option Comparison
  | .compared c | .noBaseline c => some c
  | .missing | .kindMismatch => none

def Finding.passed (finding : Finding) : Bool := finding.comparison.any (·.passed)

def Finding.trend : Finding → Option Trend
  | .compared c => some c.trend
  | .noBaseline _ | .missing | .kindMismatch => none

structure CheckReason where
  check : CheckId
  role : Role
  finding : Finding
  /-- This check alone makes the candidate a regression. -/
  regresses : Bool
  deriving DecidableEq

/-- A regression, or a goal that does not pass yet. -/
def CheckReason.isOpenBlocker (reason : CheckReason) : Bool :=
  reason.regresses || (reason.role == .goal && !reason.finding.passed)

structure Verdict where
  kind : VerdictKind
  /-- One reason per check, in definition order. -/
  reasons : List CheckReason
  deriving DecidableEq

def Verdict.refusesKeep (verdict : Verdict) : Bool := verdict.kind == .regression

/-- Whether any check improved against the baseline. -/
def Verdict.improved (verdict : Verdict) : Bool :=
  verdict.reasons.any fun reason => reason.finding.trend == some .better

def Verdict.openBlockers (verdict : Verdict) : List CheckReason :=
  verdict.reasons.filter (·.isOpenBlocker)

def regresses (role : Role) (finding : Finding) : Bool :=
  match role with
  | .invariant => !finding.passed
  | .ratchet => match finding with
    | .compared c => c.trend == .worse
    | .noBaseline _ => false
    | .missing | .kindMismatch => true
  | .goal => false

section Verdicts

variable {F : Type} [Scalar F]

def finding (check : CheckDefinition F) (baseline candidate : Results F) : Finding :=
  match candidate[check.id]? with
  | none => .missing
  | some own =>
    let compared := match baseline[check.id]? with
      | some base => (check.config.compare base own).map Finding.compared
      | none => (check.config.compare own own).map Finding.noBaseline
    compared.getD .kindMismatch

def checkReason (check : CheckDefinition F) (baseline candidate : Results F) : CheckReason :=
  let found := finding check baseline candidate
  { check := check.id
    role := check.role
    finding := found
    regresses := regresses check.role found }

/-- There is a goal and every goal passes. -/
def goalsPass (reasons : List CheckReason) : Bool :=
  let goals := reasons.filter (·.role == .goal)
  !goals.isEmpty && goals.all (·.finding.passed)

def verdictKind (mode : Mode) (reasons : List CheckReason) : VerdictKind :=
  let comparable := reasons.any (·.finding.trend.isSome)
  let improved := reasons.any fun reason => reason.finding.trend == some .better
  if reasons.any (·.regresses) then .regression
  else match mode with
    | .converge => if goalsPass reasons then .done else .keepable
    | .loop _ => if comparable && !improved then .discard else .keepable

def keepable (objective : ObjectiveDefinition F) (baseline candidate : Results F) : Verdict :=
  let reasons := objective.checks.map (checkReason · baseline candidate)
  { kind := verdictKind objective.mode reasons, reasons }

end Verdicts

/-! ## The ledger -/

/-- The kept revision later candidates are compared with. -/
structure Baseline (F : Type) where
  revision : Revision
  results : Results F

inductive Decision where
  | keep
  | discard
  | done
  deriving DecidableEq

structure LedgerEntry (F : Type) where
  revision : Revision
  results : Results F
  decision : Decision
  note : String

inductive SettleError where
  | regressionRefused
  | notDone
  deriving DecidableEq

structure Ledger (F : Type) where
  /-- Absent until the first revision is kept. -/
  baseline : Option (Baseline F)
  entries : List (LedgerEntry F)
  /-- Consecutive settles that brought no improvement. -/
  plateau : Nat

namespace Ledger

variable {F : Type}

def default : Ledger F := { baseline := none, entries := [], plateau := 0 }

def baselineResults (ledger : Ledger F) : Option (Results F) := ledger.baseline.map (·.results)

/-- The results a candidate is judged against: the baseline's, or none. -/
def resultsInForce (ledger : Ledger F) : Results F := ledger.baselineResults.getD ∅

/-- Records a settled candidate.  Keep and done move the baseline; discard does not.
`plateau` is a `u32` counter, which wraps. -/
def settle (ledger : Ledger F) (entry : LedgerEntry F) (verdict : Verdict) :
    Except SettleError (Ledger F) :=
  if entry.decision ≠ .discard ∧ verdict.refusesKeep then .error .regressionRefused
  else if entry.decision = .done ∧ verdict.kind ≠ .done then .error .notDone
  else
    let adopts := entry.decision != .discard
    let progressed := adopts && (ledger.baseline.isNone || verdict.improved)
    .ok
      { plateau := if progressed then 0 else (ledger.plateau + 1) % 2 ^ 32
        baseline :=
          if adopts then some { revision := entry.revision, results := entry.results }
          else ledger.baseline
        entries := ledger.entries ++ [entry] }

/-- Whether a looping objective has gone `plateau` settles without improvement. -/
def plateauReached (ledger : Ledger F) : Mode → Bool
  | .loop plateau => plateau ≤ ledger.plateau
  | .converge => false

variable [Scalar F]

/-- Whether a baseline result of check `id` still compares under `next`. -/
def comparable (previous next : ObjectiveDefinition F) (id : CheckId) : Bool :=
  match previous.check id, next.check id with
  | some before, some after => before.config.eq after.config
  | _, _ => false

/-- Keeps only the baseline results of checks whose kind and parameters are the
same in `previous` and `next`. -/
def retainComparable (ledger : Ledger F) (previous next : ObjectiveDefinition F) : Ledger F :=
  { ledger with
    baseline := ledger.baseline.map fun baseline =>
      { baseline with results := baseline.results.filter fun id _ => comparable previous next id } }

end Ledger

/-! ## What a verdict and a settle say -/

theorem regresses_of_verdictKind_ne (kept : verdictKind mode reasons ≠ .regression) :
    ∀ reason ∈ reasons, reason.regresses = false := by
  intro reason member
  by_contra regressing
  have any : reasons.any (·.regresses) = true :=
    any_eq_true.mpr ⟨reason, member, by simpa using regressing⟩
  exact kept (by simp [verdictKind, any])

theorem goals_of_verdictKind_done (done : verdictKind mode reasons = .done) :
    mode = .converge ∧ (∃ reason ∈ reasons, reason.role = .goal) ∧
      ∀ reason ∈ reasons, reason.role = .goal → reason.finding.passed = true := by
  unfold verdictKind at done
  dsimp only at done
  split at done
  · cases done
  · cases mode with
    | loop =>
      dsimp only at done
      split at done <;> cases done
    | converge =>
      dsimp only at done
      split at done
      next pass =>
        simp only [goalsPass, Bool.and_eq_true, Bool.not_eq_true', isEmpty_eq_false_iff,
          all_eq_true, mem_filter, beq_iff_eq] at pass
        obtain ⟨some, all⟩ := pass
        obtain ⟨reason, member⟩ := exists_mem_of_ne_nil _ some
        rw [mem_filter, beq_iff_eq] at member
        exact ⟨rfl, ⟨reason, member⟩, fun reason member role => all reason ⟨member, role⟩⟩
      next => cases done

/-- What a recorded settle was allowed by, and what it records. -/
theorem Ledger.settle_ok {F : Type} {ledger ledger' : Ledger F} {entry : LedgerEntry F}
    (recorded : ledger.settle entry verdict = .ok ledger') :
    (entry.decision ≠ .discard → verdict.kind ≠ .regression) ∧
      (entry.decision = .done → verdict.kind = .done) ∧
      ledger'.entries = ledger.entries ++ [entry] ∧
      ledger'.baseline =
        if entry.decision = .discard then ledger.baseline
        else some { revision := entry.revision, results := entry.results } := by
  unfold Ledger.settle at recorded
  split at recorded
  · cases recorded
  next keeps =>
    split at recorded
    · cases recorded
    next finishes =>
      cases recorded
      refine ⟨?_, ?_, rfl, ?_⟩
      · intro adopts regression
        exact keeps ⟨adopts, by simp [Verdict.refusesKeep, regression]⟩
      · intro done
        by_contra notDone
        exact finishes ⟨done, notDone⟩
      · by_cases discard : entry.decision = .discard <;> simp [discard]

end NeigeCalm.Objective
