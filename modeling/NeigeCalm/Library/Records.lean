import Mathlib.Data.List.Basic

/-!
# The first matching record of a list

Records are kept in a list and looked up by a test; an update rewrites the first record that
passes it and leaves the others where they are.
-/

namespace NeigeCalm.Library

open List

namespace Records

variable {α : Type}

/-- Rewrites the first record that passes `p`. -/
def updateFirst (p : α → Bool) (f : α → α) : List α → List α
  | [] => []
  | a :: rest => if p a then f a :: rest else a :: updateFirst p f rest

variable {p : α → Bool} {l : List α} {a : α}

section

variable (found : l.find? p = some a)

include found

/-- Where the record found stands, and what the update makes of the list. -/
theorem updateFirst_split :
    ∃ before after, l = before ++ a :: after ∧ (∀ b ∈ before, p b = false) ∧ p a = true ∧
      updateFirst p f l = before ++ f a :: after := by
  induction l with
  | nil => cases found
  | cons first rest ih =>
    rw [find?_cons] at found
    by_cases passes : p first = true
    · rw [passes] at found
      cases found
      exact ⟨[], rest, rfl, by simp, passes, by simp [updateFirst, passes]⟩
    · rw [Bool.not_eq_true] at passes
      rw [passes] at found
      obtain ⟨before, after, split, earlier, here, updated⟩ := ih found
      refine ⟨first :: before, after, by rw [split]; rfl, ?_, here, ?_⟩
      · simpa [passes] using earlier
      · simp [updateFirst, passes, updated]

/-- The updated record is found, if it still passes. -/
theorem find?_updateFirst (passes : p (f a) = true) : (updateFirst p f l).find? p = some (f a) := by
  obtain ⟨before, _, -, earlier, -, updated⟩ := updateFirst_split (f := f) found
  have skip : before.find? p = none := find?_eq_none.mpr fun b member => by
    simp [earlier b member]
  rw [updated, find?_append, skip, Option.none_or, find?_cons, passes]

/-- Records that pass a test which the updated record fails, before and after, stay. -/
theorem filter_updateFirst {q : α → Bool} (before : q a = false) (after : q (f a) = false) :
    (updateFirst p f l).filter q = l.filter q := by
  obtain ⟨_, _, split, -, -, updated⟩ := updateFirst_split (f := f) found
  rw [updated, split, filter_append, filter_append, filter_cons_of_neg, filter_cons_of_neg]
  · simp [before]
  · simp [after]

theorem map_updateFirst {β : Type} {key : α → β} (same : key (f a) = key a) :
    (updateFirst p f l).map key = l.map key := by
  obtain ⟨_, _, split, -, -, updated⟩ := updateFirst_split (f := f) found
  rw [updated, split, map_append, map_append, map_cons, map_cons, same]

theorem mem_updateFirst (member : b ∈ updateFirst p f l) : b = f a ∨ b ∈ l := by
  obtain ⟨_, _, split, -, -, updated⟩ := updateFirst_split (f := f) found
  rw [updated, mem_append, mem_cons] at member
  rw [split, mem_append, mem_cons]
  rcases member with early | rfl | late
  · exact .inr (.inl early)
  · exact .inl rfl
  · exact .inr (.inr (.inr late))

theorem updated_mem_updateFirst : f a ∈ updateFirst p f l := by
  obtain ⟨_, _, -, -, -, updated⟩ := updateFirst_split (f := f) found
  rw [updated]
  exact mem_append_right _ mem_cons_self

/-- Every record but the one found stays. -/
theorem mem_updateFirst_of_ne (member : b ∈ l) (other : b ≠ a) : b ∈ updateFirst p f l := by
  obtain ⟨_, _, split, -, -, updated⟩ := updateFirst_split (f := f) found
  rw [split, mem_append, mem_cons] at member
  rw [updated, mem_append, mem_cons]
  rcases member with early | same | late
  · exact .inl early
  · exact absurd same other
  · exact .inr (.inr late)

end

section Keys

variable {β : Type}

/-- Under distinct keys, the key of the record found is gone from the records that stay. -/
theorem key_ne_of_mem_updateFirst (found : l.find? p = some a) (distinct : (l.map key).Nodup)
    (member : b ∈ updateFirst p f l) : b = f a ∨ b ∈ l ∧ key b ≠ key a := by
  obtain ⟨_, _, split, -, -, updated⟩ := updateFirst_split (f := f) found
  rw [updated, mem_append, mem_cons] at member
  rw [split, map_append, map_cons, nodup_append, nodup_cons] at distinct
  obtain ⟨-, ⟨notLater, -⟩, apart⟩ := distinct
  rcases member with early | here | late
  · refine .inr ⟨split ▸ mem_append_left _ early, ?_⟩
    exact apart _ (mem_map_of_mem early) _ mem_cons_self
  · exact .inl here
  · refine .inr ⟨split ▸ mem_append_right _ (mem_cons_of_mem _ late), ?_⟩
    intro same
    exact notLater (same ▸ mem_map_of_mem late)

/-- A fresh key keeps the keys distinct. -/
theorem nodup_map_updateFirst (found : l.find? p = some a) (distinct : (l.map key).Nodup)
    (fresh : ∀ b ∈ l, key b ≠ key (f a)) : ((updateFirst p f l).map key).Nodup := by
  obtain ⟨front, _, split, -, -, updated⟩ := updateFirst_split (f := f) found
  subst split
  rw [updated]
  rw [map_append, map_cons, nodup_append, nodup_cons] at distinct ⊢
  obtain ⟨frontDistinct, ⟨-, backDistinct⟩, apart⟩ := distinct
  have notFront : ∀ k ∈ front.map key, k ≠ key (f a) := by
    intro k member
    obtain ⟨b, early, rfl⟩ := mem_map.mp member
    exact fresh b (mem_append_left _ early)
  refine ⟨frontDistinct, ⟨?_, backDistinct⟩, ?_⟩
  · intro member
    obtain ⟨b, late, same⟩ := mem_map.mp member
    exact fresh b (mem_append_right _ (mem_cons_of_mem _ late)) same
  · intro k early k' late
    rcases mem_cons.mp late with rfl | late
    · exact notFront k early
    · exact apart k early k' (mem_cons_of_mem _ late)

end Keys

end Records

end NeigeCalm.Library
