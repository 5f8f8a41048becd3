import NeigeCalm.Library.Json

/-!
# Workers

The vocabulary of worker sessions: the provider behind a session, its state and contract, and the
role of the card that it works for.
-/

namespace NeigeCalm

open Library

inductive AgentProvider where
  | openCode
  | codex
  | claude
  | grok
  | antigravity
deriving DecidableEq

inductive WorkerSessionState where
  | starting
  | running
  | idle
  | turnPending
  | exited
  | failed
  | superseded
deriving DecidableEq

inductive WorkerProviderKind where
  | openCode
  | codex
  | claude
  | grok
  | antigravity
  | terminal
deriving DecidableEq

inductive WorkerContract where
  | planner
  | assistant
  | executor
  | validator
deriving DecidableEq

def WorkerSessionState.isActive : WorkerSessionState → Bool
  | .starting | .running | .idle | .turnPending => true
  | .exited | .failed | .superseded => false

/-- States that carry live authority. -/
def WorkerSessionState.isActiveAuthority : WorkerSessionState → Bool
  | .starting | .running | .idle | .turnPending => true
  | .exited | .failed | .superseded => false

inductive SessionMode where
  | ephemeral
  | resumable
deriving DecidableEq

inductive CardRole where
  | worker
  | planner
  | reportCard
  | assistant
deriving DecidableEq

def WorkerProviderKind.ofProvider : AgentProvider → WorkerProviderKind
  | .openCode => .openCode
  | .codex => .codex
  | .claude => .claude
  | .grok => .grok
  | .antigravity => .antigravity

namespace AgentProvider

def ofName (name : Text) : Option AgentProvider :=
  if name = "opencode".toList then some .openCode
  else if name = "codex".toList then some .codex
  else if name = "claude".toList then some .claude
  else if name = "grok".toList then some .grok
  else if name = "antigravity".toList then some .antigravity
  else none

/-- A unit variant is read from its name, or from an object whose only member is the name with
the value null. -/
def ofJson {N : Type} : Json N → Option AgentProvider
  | .string name => ofName name
  | .object [(name, .null)] => ofName name
  | _ => none

end AgentProvider

end NeigeCalm
