import NeigeCalm.Objective.Check

/-!
# Objective definitions, their validation and their standard

An objective says what to reach, how it is checked and the soft limits of
pursuing it.  Its *standard* is the part a human approves: key, mode, checks and
constraints.  Title, budget and compact policy are outside it.

The standard's hash is SHA-256 over a JSON rendering, both from other crates, so
the model takes it as a parameter `digest` over the canonical form, into any
type of hashes.
-/

namespace NeigeCalm.Objective

open Library List

/-- How an objective stops. -/
inductive Mode where
  | converge
  | loop (plateau : Nat)
  deriving DecidableEq

/-- What a check's result means for keeping a revision. -/
inductive Role where
  | invariant
  | ratchet
  | goal
  deriving DecidableEq

structure CheckDefinition (F : Type) where
  id : CheckId
  role : Role
  config : CheckConfig F
  deriving DecidableEq

/-- Soft limits: exhausting one reminds the planner, it does not stop work. -/
structure Budget where
  turns : Nat
  tokens : Nat
  wallSecs : Nat
  deriving DecidableEq

/-- Cumulative user-turn usage. -/
structure Usage where
  turns : Nat
  contextTokens : Nat
  elapsedSecs : Nat
  deriving DecidableEq

def Usage.default : Usage := ⟨0, 0, 0⟩

/-- The limits `used` has reached, in `BudgetLimit` order. -/
def Budget.exhausted (budget : Budget) (used : Usage) : List BudgetLimit :=
  [(BudgetLimit.turns, decide (budget.turns ≤ used.turns)),
    (BudgetLimit.tokens, decide (budget.tokens ≤ used.contextTokens)),
    (BudgetLimit.wallSecs, decide (budget.wallSecs ≤ used.elapsedSecs))].filterMap
      fun (limit, hit) => if hit then some limit else none

/-- Usage accumulated since `start`; `saturating_sub` is subtraction on `Nat`. -/
def Usage.since (current start : Usage) : Usage :=
  { turns := current.turns - start.turns
    contextTokens := current.contextTokens - start.contextTokens
    elapsedSecs := current.elapsedSecs - start.elapsedSecs }

/-- When the session's context is compacted for this objective. -/
inductive CompactPolicy where
  | everySettle
  | onClose
  | none
  deriving DecidableEq

structure ObjectiveDefinition (F : Type) where
  key : ObjectiveKey
  title : String
  mode : Mode
  checks : List (CheckDefinition F)
  constraints : List String
  budget : Budget
  compact : CompactPolicy
  deriving DecidableEq

namespace ObjectiveDefinition

variable {F : Type}

/-- The first check of that id. -/
def check (objective : ObjectiveDefinition F) (id : CheckId) : Option (CheckDefinition F) :=
  objective.checks.find? (·.id == id)

variable [Scalar F]

/-- One check's diagnostics, given the ids seen before it. -/
def checkDiagnostics (seen : List CheckId) (check : CheckDefinition F) : List Diagnostic :=
  let path := "checks." ++ check.id.value
  (if isBlank check.id.value then [⟨path, .emptyCheckId⟩] else []) ++
    (if seen.contains check.id then [⟨path, .duplicateCheckId⟩] else []) ++
      check.config.validate.map fun problem => ⟨path, problem⟩

/-- The loop over the checks, carrying the set of ids seen so far. -/
def checksDiagnostics (seen : List CheckId) : List (CheckDefinition F) → List Diagnostic
  | [] => []
  | check :: rest => checkDiagnostics seen check ++ checksDiagnostics (check.id :: seen) rest

def hasRole (objective : ObjectiveDefinition F) (role : Role) : Bool :=
  objective.checks.any (·.role == role)

def modeDiagnostics (objective : ObjectiveDefinition F) : List Diagnostic :=
  match objective.mode with
  | .converge =>
    if objective.hasRole .goal then [] else [⟨"mode", .convergeWithoutGoal⟩]
  | .loop plateau =>
    (if objective.hasRole .ratchet then [] else [⟨"mode", .loopWithoutRatchet⟩]) ++
      if plateau = 0 then [⟨"mode.plateau", .zeroPlateau⟩] else []

def constraintDiagnostics (objective : ObjectiveDefinition F) : List Diagnostic :=
  objective.constraints.zipIdx.filterMap fun (constraint, index) =>
    if isBlank constraint then some ⟨"constraints." ++ toString index, .emptyConstraint⟩ else none

def budgetDiagnostics (objective : ObjectiveDefinition F) : List Diagnostic :=
  [(BudgetLimit.turns, "budget.turns", objective.budget.turns == 0),
    (BudgetLimit.tokens, "budget.tokens", objective.budget.tokens == 0),
    (BudgetLimit.wallSecs, "budget.wall_secs", objective.budget.wallSecs == 0)].filterMap
      fun (limit, path, isZero) => if isZero then some ⟨path, .zeroBudget limit⟩ else none

def validate (objective : ObjectiveDefinition F) : List Diagnostic :=
  (if isBlank objective.key.value then [⟨"key", .emptyKey⟩] else []) ++
    (if isBlank objective.title then [⟨"title", .emptyTitle⟩] else []) ++
      (if objective.checks.isEmpty then [⟨"checks", .noChecks⟩] else []) ++
        checksDiagnostics [] objective.checks ++ objective.modeDiagnostics ++
          objective.constraintDiagnostics ++ objective.budgetDiagnostics

end ObjectiveDefinition

/-! ## What a clean validation gives -/

section Validated

variable {F : Type}

theorem ObjectiveDefinition.check_mem {objective : ObjectiveDefinition F} {id : CheckId}
    {check : CheckDefinition F} (found : objective.check id = some check) :
    check ∈ objective.checks ∧ check.id = id :=
  ⟨mem_of_find?_eq_some found, by simpa using find?_some found⟩

variable [Scalar F]

/-- The checks after `seen` repeat no id, neither among themselves nor of `seen`. -/
theorem ObjectiveDefinition.nodup_of_checksDiagnostics {checks : List (CheckDefinition F)}
    (clean : ObjectiveDefinition.checksDiagnostics seen checks = []) :
    (checks.map (·.id)).Nodup ∧ ∀ check ∈ checks, check.id ∉ seen := by
  induction checks generalizing seen with
  | nil => simp
  | cons check _ ih =>
    simp only [checksDiagnostics, checkDiagnostics, append_eq_nil_iff] at clean
    obtain ⟨⟨⟨-, fresh⟩, -⟩, restClean⟩ := clean
    obtain ⟨restNodup, restFresh⟩ := ih restClean
    have head : check.id ∉ seen := by
      intro member
      simp [member] at fresh
    refine ⟨?_, ?_⟩
    · refine nodup_cons.mpr ⟨?_, restNodup⟩
      intro member
      obtain ⟨other, otherMember, same⟩ := mem_map.mp member
      exact restFresh other otherMember (by simp [same])
    · intro other member
      rcases mem_cons.mp member with rfl | member
      · exact head
      · exact fun inSeen => restFresh other member (mem_cons_of_mem _ inSeen)

theorem ObjectiveDefinition.config_of_checksDiagnostics {checks : List (CheckDefinition F)}
    (clean : ObjectiveDefinition.checksDiagnostics seen checks = []) :
    ∀ check ∈ checks, check.config.validate = [] := by
  induction checks generalizing seen with
  | nil => simp
  | cons _ _ ih =>
    simp only [checksDiagnostics, checkDiagnostics, append_eq_nil_iff, map_eq_nil_iff] at clean
    obtain ⟨⟨-, headClean⟩, restClean⟩ := clean
    intro other member
    rcases mem_cons.mp member with rfl | member
    · exact headClean
    · exact ih restClean other member

variable {objective : ObjectiveDefinition F}

section

variable (valid : objective.validate = [])

include valid

theorem ObjectiveDefinition.checksDiagnostics_of_validate :
    checksDiagnostics [] objective.checks = [] := by
  simp only [validate, append_eq_nil_iff] at valid
  exact valid.1.1.1.2

theorem ObjectiveDefinition.checks_nodup : (objective.checks.map (·.id)).Nodup :=
  (nodup_of_checksDiagnostics (checksDiagnostics_of_validate valid)).1

theorem ObjectiveDefinition.checks_ne_nil : objective.checks ≠ [] := by
  intro empty
  simp [validate, empty] at valid

theorem ObjectiveDefinition.samples_pos {check : CheckDefinition F}
    (member : check ∈ objective.checks) : 0 < check.config.samples :=
  CheckConfig.samples_pos_of_validate
    (config_of_checksDiagnostics (checksDiagnostics_of_validate valid) check member)

/-- In a validated objective a check is found under its own id. -/
theorem ObjectiveDefinition.check_of_mem {check : CheckDefinition F}
    (member : check ∈ objective.checks) : objective.check check.id = some check := by
  obtain ⟨other, found⟩ : ∃ other, objective.check check.id = some other :=
    Option.isSome_iff_exists.mp (find?_isSome.mpr ⟨check, member, by simp⟩)
  obtain ⟨otherMember, same⟩ := check_mem found
  have equal := inj_on_of_nodup_map (checks_nodup valid) otherMember member same
  rw [found, equal]

end

end Validated

/-! ## The standard and its approval -/

/-- Version of the canonical form. -/
def canonicalVersion : Nat := 1

/-- The canonical form of a standard, the text that is hashed. -/
structure Canonical (F : Type) where
  version : Nat
  key : ObjectiveKey
  mode : Mode
  checks : List (CheckDefinition F)
  constraints : List String
  deriving DecidableEq

/-- A human's approval of one exact standard. -/
structure Approval (H : Type) where
  standardHash : H
  approver : String
  deriving DecidableEq

section Standard

variable {F H : Type}

def ObjectiveDefinition.canonical (objective : ObjectiveDefinition F) : Canonical F :=
  { version := canonicalVersion
    key := objective.key
    mode := objective.mode
    checks := objective.checks
    constraints := objective.constraints }

variable (digest : Canonical F → H)

def standardHash (objective : ObjectiveDefinition F) : H := digest objective.canonical

/-- Valid only while the objective's standard still hashes to the approved hash. -/
def Approval.isValidFor [DecidableEq H] (approval : Approval H)
    (objective : ObjectiveDefinition F) : Bool :=
  approval.standardHash == Objective.standardHash digest objective

variable {digest}

/-- Two definitions of one hash have one standard. -/
theorem standard_eq_of_hash (injective : Function.Injective digest)
    (same : standardHash digest a = standardHash digest b) :
    a.key = b.key ∧ a.mode = b.mode ∧ a.checks = b.checks ∧ a.constraints = b.constraints := by
  have canonical := injective same
  simp only [ObjectiveDefinition.canonical, Canonical.mk.injEq] at canonical
  exact canonical.2

end Standard

end NeigeCalm.Objective
