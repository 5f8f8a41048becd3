import NeigeCalm.Library.Lines
import Mathlib.Data.List.Lex
import Mathlib.Data.Prod.Lex
import Mathlib.Data.Char

/-!
# Tasks

The rows of the `tasks` table, with the columns that scheduling reads.
-/

namespace NeigeCalm

open Library

inductive TaskAccess where
  | readOnly
  | readWrite
deriving DecidableEq

inductive TaskKind where
  | codex
  | claude
  | terminal
  | compact
deriving DecidableEq

inductive TaskStatus where
  | pending
  | dispatched
  | running
  | verifying
  | done
  | failed
  | canceled
deriving DecidableEq

def TaskStatus.isInFlight : TaskStatus → Bool
  | .dispatched | .running | .verifying => true
  | _ => false

def TaskStatus.isTerminal : TaskStatus → Bool
  | .done | .failed | .canceled => true
  | _ => false

/-- One execution of a task; `key` names the task, `id` the execution. -/
structure Task where
  id : Text
  key : Text
  kind : TaskKind
  spawn : Text
  access : TaskAccess
  dependsOn : List Text
  priority : Int
  createdAt : Int
  status : TaskStatus
deriving DecidableEq

def taskChildTrackRoute : Text := "sub-track".toList

/-- Everything but a task on the child-track route and the compaction of a session. -/
def Task.runsInTrackCheckout (task : Task) : Bool :=
  (task.kind == .codex || task.kind == .claude || task.kind == .terminal) &&
    task.spawn != taskChildTrackRoute

def TaskKind.workerOperationKind : TaskKind → Option Text
  | .codex => some "codex-worker".toList
  | .claude => some "claude-worker".toList
  | .terminal => some "terminal-worker".toList
  | .compact => none

/-- The scheduler's order: `priority DESC, created_at_ms ASC, key ASC`. -/
def Task.rank (task : Task) : ℤ ×ₗ ℤ ×ₗ List Char :=
  toLex (-task.priority, toLex (task.createdAt, task.key))

end NeigeCalm
