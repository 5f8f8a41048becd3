import Mathlib.Data.List.Basic

/-!
# Runs of a reacting machine

A machine is one total function `react : S → E → S × List O`: it takes a state
and an input to the next state and the outputs of that reaction.  This module
has the runs of such a machine, from any state and of any length: the state a
run ends in, the outputs it produced, and the rules that lift one reaction to a
whole run.
-/

namespace NeigeCalm.Library

namespace Machine

variable {S E O : Type} (react : S → E → S × List O)

/-- The state after reacting to `events` in order. -/
def run (s : S) (events : List E) : S :=
  events.foldl (fun state event => (react state event).1) s

/-- The outputs of each reaction of a run, in order. -/
def trace (s : S) : List E → List (List O)
  | [] => []
  | event :: events => (react s event).2 :: trace (react s event).1 events

/-- All the outputs of a run, in order. -/
def outputs (s : S) (events : List E) : List O := (trace react s events).flatten

/-- `s` ends some run from `init`. -/
def Reachable (init s : S) : Prop := ∃ events, s = run react init events

@[simp] theorem run_nil : run react s [] = s := rfl

@[simp] theorem run_cons : run react s (event :: events) = run react (react s event).1 events := rfl

theorem run_append (s : S) (first second : List E) :
    run react s (first ++ second) = run react (run react s first) second :=
  List.foldl_append

@[simp] theorem outputs_nil : outputs react s [] = [] := rfl

@[simp] theorem outputs_cons :
    outputs react s (event :: events) =
      (react s event).2 ++ outputs react (react s event).1 events := rfl

theorem outputs_append (s : S) (first second : List E) :
    outputs react s (first ++ second) =
      outputs react s first ++ outputs react (run react s first) second := by
  induction first generalizing s with
  | nil => rfl
  | cons _ _ ih => simp [ih]

/-- An output of a run is one of some reaction of it. -/
theorem exists_of_mem_outputs (member : output ∈ outputs react s events) :
    ∃ before event after, events = before ++ event :: after ∧
      output ∈ (react (run react s before) event).2 := by
  induction events generalizing s with
  | nil => cases member
  | cons event rest ih =>
    rcases List.mem_append.mp member with now | later
    · exact ⟨[], event, rest, rfl, now⟩
    · obtain ⟨before, next, after, split, here⟩ := ih later
      exact ⟨event :: before, next, after, by rw [split]; rfl, here⟩

variable {react}

theorem Reachable.run (h : Reachable react init s) (events : List E) :
    Reachable react init (run react s events) := by
  obtain ⟨before, rfl⟩ := h
  exact ⟨before ++ events, (run_append react init before events).symm⟩

theorem Reachable.step (h : Reachable react init s) (event : E) :
    Reachable react init (react s event).1 :=
  h.run [event]

/-- **Invariant rule.**  What one reaction preserves, a run preserves. -/
theorem run_preserves (inv : S → Prop) (step : ∀ s event, inv s → inv (react s event).1)
    (h : inv s) (events : List E) : inv (Machine.run react s events) := by
  induction events generalizing s with
  | nil => exact h
  | cons event _ ih => exact ih (step s event h)

theorem Reachable.preserves (inv : S → Prop) (step : ∀ s event, inv s → inv (react s event).1)
    (base : inv init) (h : Reachable react init s) : inv s := by
  obtain ⟨events, rfl⟩ := h
  exact run_preserves inv step base events

/-- **Record rule.**  What one reaction preserves of the state and all the
outputs so far, a run preserves. -/
theorem outputs_preserve (inv : S → List O → Prop)
    (step : ∀ s sent event, inv s sent → inv (react s event).1 (sent ++ (react s event).2))
    (h : inv s sent) (events : List E) :
    inv (Machine.run react s events) (sent ++ outputs react s events) := by
  induction events generalizing s sent with
  | nil => rwa [outputs_nil, List.append_nil]
  | cons event _ ih =>
    rw [run_cons, outputs_cons, ← List.append_assoc]
    exact ih (step s sent event h)

/-- **Progress rule.**  A transitive relation that every reaction from an
invariant state satisfies holds between the ends of every run from one. -/
theorem run_rel (inv : S → Prop) (rel : S → S → Prop)
    (step : ∀ s event, inv s → inv (react s event).1)
    (refl : ∀ s, rel s s) (trans : ∀ {a b c}, rel a b → rel b c → rel a c)
    (move : ∀ s event, inv s → rel s (react s event).1)
    (h : inv s) : rel s (Machine.run react s events) := by
  induction events generalizing s with
  | nil => exact refl s
  | cons event _ ih => exact trans (move s event h) (ih (step s event h))

end Machine

end NeigeCalm.Library
