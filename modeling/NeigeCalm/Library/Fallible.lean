import Mathlib.Data.List.Basic

/-!
# Steps that can fail

Operations return `Except`: a failure stops what is left.  The rules here take a
successful composite apart into its successful parts; the same for a list of `Option` steps.
-/

namespace NeigeCalm.Library

open List Option

namespace Fallible

variable {ε α β : Type}

theorem bind_eq_ok {next : α → Except ε β} :
    (first >>= next) = .ok result ↔ ∃ value, first = .ok value ∧ next value = .ok result := by
  cases first with
  | error => exact ⟨nofun, fun ⟨_, failed, _⟩ => nomatch failed⟩
  | ok value =>
    exact ⟨fun done => ⟨value, rfl, done⟩, fun ⟨_, same, done⟩ => Except.ok.inj same ▸ done⟩

theorem map_eq_ok {first : Except ε α} {f : α → β} :
    first.map f = .ok result ↔ ∃ value, first = .ok value ∧ f value = result := by
  cases first with
  | error => exact ⟨nofun, fun ⟨_, failed, _⟩ => nomatch failed⟩
  | ok value =>
    exact ⟨fun done => ⟨value, rfl, Except.ok.inj done⟩,
      fun ⟨_, same, done⟩ => congrArg Except.ok (Except.ok.inj same ▸ done)⟩

theorem mapError_eq_ok {ε' : Type} {first : Except ε α} {f : ε → ε'} :
    first.mapError f = .ok result ↔ first = .ok result := by
  cases first with
  | error => exact ⟨nofun, nofun⟩
  | ok => exact ⟨fun same => congrArg Except.ok (Except.ok.inj same),
      fun same => congrArg Except.ok (Except.ok.inj same)⟩

/-! ## All of a list -/

/-- Each element of a list has its result among the results. -/
theorem exists_of_mapM {f : α → Except ε β} {l : List α} (all : l.mapM f = .ok results)
    (among : a ∈ l) : ∃ b ∈ results, f a = .ok b := by
  induction l generalizing results with
  | nil => cases among
  | cons _ _ ih =>
    rw [mapM_cons] at all
    obtain ⟨head, isHead, all⟩ := bind_eq_ok.mp all
    obtain ⟨_, isTail, same⟩ := bind_eq_ok.mp all
    cases same
    rcases mem_cons.mp among with rfl | later
    · exact ⟨head, mem_cons_self, isHead⟩
    · obtain ⟨b, isResult, isB⟩ := ih isTail later
      exact ⟨b, mem_cons_of_mem _ isResult, isB⟩

section All

variable {f : α → Option β} {l : List α}

theorem isSome_mapM : (l.mapM f).isSome = true ↔ ∀ a ∈ l, (f a).isSome = true := by
  induction l with
  | nil => simp
  | cons first rest ih =>
    rw [forall_mem_cons, ← ih, mapM_cons]
    cases f first with
    | none => simp
    | some => cases rest.mapM f <;> simp

theorem mem_of_mapM (all : l.mapM f = some results) : b ∈ results ↔ ∃ a ∈ l, f a = some b := by
  induction l generalizing results with
  | nil =>
    cases all
    simp
  | cons _ _ ih =>
    rw [mapM_cons, bind_eq_bind, bind_eq_some_iff] at all
    obtain ⟨head, isHead, all⟩ := all
    rw [bind_eq_bind, bind_eq_some_iff] at all
    obtain ⟨_, isTail, same⟩ := all
    cases same
    rw [mem_cons, ih isTail, @eq_comm _ b head]
    simp only [mem_cons, exists_eq_or_imp, isHead, some.injEq]

end All

end Fallible

end NeigeCalm.Library
