import Mathlib.Order.Bounds.Basic
import Mathlib.Order.Lattice.Nat

/-!
# Edit distance

`Edits n` relates two lists when `n` insertions, deletions and substitutions of one
entry turn one into the other; `editDistance` is the least such number
(`isLeast_editDistance`).  Equal first entries may be dropped (`editDistance_cons_same`).
-/

namespace NeigeCalm.Library

open List

variable {α : Type}

/-- One entry is inserted, deleted or replaced. -/
inductive Edit : List α → List α → Prop
  | insert (before after : List α) (entry : α) : Edit (before ++ after) (before ++ entry :: after)
  | delete (before after : List α) (entry : α) : Edit (before ++ entry :: after) (before ++ after)
  | replace (before after : List α) (old new : α) :
    Edit (before ++ old :: after) (before ++ new :: after)

inductive Edits : Nat → List α → List α → Prop
  | done (list : List α) : Edits 0 list list
  | step : Edit left middle → Edits n middle right → Edits (n + 1) left right

variable {right : List α}

theorem Edit.cons (entry : α) (edit : Edit left right) : Edit (entry :: left) (entry :: right) := by
  cases edit with
  | insert before after other => exact .insert (entry :: before) after other
  | delete before after other => exact .delete (entry :: before) after other
  | replace before after old new => exact .replace (entry :: before) after old new

theorem Edit.reverse (edit : Edit left right) : Edit left.reverse right.reverse := by
  cases edit with
  | insert before after entry => simpa using Edit.insert after.reverse before.reverse entry
  | delete before after entry => simpa using Edit.delete after.reverse before.reverse entry
  | replace before after old new => simpa using Edit.replace after.reverse before.reverse old new

theorem Edits.cons (entry : α) (edits : Edits n left right) :
    Edits n (entry :: left) (entry :: right) := by
  induction edits with
  | done => exact .done _
  | step edit _ ih => exact .step (edit.cons entry) ih

theorem Edits.reverse (edits : Edits n left right) : Edits n left.reverse right.reverse := by
  induction edits with
  | done => exact .done _
  | step edit _ ih => exact .step edit.reverse ih

theorem edits_nil (right : List α) : Edits right.length [] right := by
  induction right with
  | nil => exact .done _
  | cons entry _ ih => exact .step (.insert [] [] entry) (ih.cons entry)

theorem nil_edits (left : List α) : Edits left.length left [] := by
  induction left with
  | nil => exact .done _
  | cons entry left ih => exact .step (.delete [] left entry) ih

variable [DecidableEq α]

def editDistance : List α → List α → Nat
  | [], right => right.length
  | left, [] => left.length
  | old :: left, new :: right =>
    min (editDistance left right + if old = new then 0 else 1)
      (min (editDistance left (new :: right) + 1) (editDistance (old :: left) right + 1))
termination_by left right => left.length + right.length

@[simp] theorem editDistance_nil (left : List α) : editDistance left [] = left.length := by
  cases left <;> simp [editDistance]

@[simp] theorem nil_editDistance : editDistance [] right = right.length := by
  simp [editDistance]

/-- The distance of two lists is at most one more than that without a first entry. -/
theorem editDistance_cons_le (entry : α) (left right : List α) :
    editDistance (entry :: left) right ≤ editDistance left right + 1 := by
  cases right with
  | nil => simp
  | cons => rw [editDistance]; omega

theorem editDistance_le_cons (entry : α) (left right : List α) :
    editDistance left (entry :: right) ≤ editDistance left right + 1 := by
  cases left with
  | nil => simp
  | cons => rw [editDistance]; omega

/-- Lists that are close to each other stay so with equal entries in front. -/
theorem editDistance_append_le
    (close : ∀ right, editDistance left right ≤ editDistance middle right + 1)
    (before right : List α) :
    editDistance (before ++ left) right ≤ editDistance (before ++ middle) right + 1 := by
  induction before generalizing right with
  | nil => exact close right
  | cons _ _ outer =>
    rw [cons_append, cons_append]
    induction right with
    | nil => simpa using outer []
    | cons new right =>
      have both := outer right
      have one := outer (new :: right)
      rw [editDistance, editDistance]
      omega

/-- An edit changes the distance to any list by at most one. -/
theorem Edit.distance_le (edit : Edit left middle) (right : List α) :
    editDistance left right ≤ editDistance middle right + 1 := by
  cases edit with
  | insert before after =>
    refine editDistance_append_le (fun right => ?_) before right
    induction right with
    | nil => simp; omega
    | cons new right =>
      have := editDistance_le_cons new after right
      rw [editDistance]
      omega
  | delete before after entry =>
    exact editDistance_append_le (editDistance_cons_le entry after) before right
  | replace before =>
    refine editDistance_append_le (fun right => ?_) before right
    induction right with
    | nil => simp
    | cons =>
      rw [editDistance, editDistance]
      split <;> split <;> omega

theorem edits_editDistance (left right : List α) : Edits (editDistance left right) left right := by
  induction left, right using editDistance.induct with
  | case1 right => simpa using edits_nil right
  | case2 left => simpa using nil_edits left
  | case3 old left new right both one other =>
    have kept : Edits (editDistance left right + if old = new then 0 else 1)
        (old :: left) (new :: right) := by
      split
      next same => exact same ▸ both.cons old
      next => exact .step (.replace [] left old new) (both.cons new)
    have dropped := Edits.step (.delete [] left old) one
    have added := Edits.step (.insert [] (old :: left) new) (other.cons new)
    rw [editDistance]
    exact min_rec' (Edits · _ _) kept (min_rec' (Edits · _ _) dropped added)

theorem editDistance_self (list : List α) : editDistance list list = 0 := by
  induction list with
  | nil => simp
  | cons _ _ ih => simp [editDistance, ih]

/-- **The edit distance is the least number of edits.** -/
theorem isLeast_editDistance (left right : List α) :
    IsLeast {n | Edits n left right} (editDistance left right) := by
  refine ⟨edits_editDistance left right, fun n edits => ?_⟩
  induction edits with
  | done list => exact Nat.le_of_eq (editDistance_self list)
  | step edit _ ih => exact Nat.le_trans (edit.distance_le _) (Nat.succ_le_succ ih)

theorem editDistance_comm (left right : List α) :
    editDistance left right = editDistance right left := by
  induction left, right using editDistance.induct with
  | case1 | case2 => simp
  | case3 _ _ new _ both one other =>
    rw [editDistance, editDistance, both, one, other, Nat.min_comm (_ + 1),
      if_congr (eq_comm (b := new)) rfl rfl]

/-- Equal first entries are best kept. -/
theorem editDistance_cons_same :
    editDistance (entry :: left) (entry :: right) = editDistance left right := by
  have one : editDistance left right ≤ editDistance (entry :: left) right + 1 :=
    (Edit.insert [] left entry).distance_le right
  have other : editDistance right left ≤ editDistance (entry :: right) left + 1 :=
    (Edit.insert [] right entry).distance_le left
  rw [editDistance_comm right, editDistance_comm (entry :: right)] at other
  rw [editDistance, if_pos rfl]
  omega

theorem editDistance_eq_zero : editDistance left right = 0 ↔ left = right := by
  refine ⟨fun same => ?_, fun same => same ▸ editDistance_self left⟩
  have edits := edits_editDistance left right
  rw [same] at edits
  cases edits
  rfl

theorem editDistance_le_max (left right : List α) :
    editDistance left right ≤ max left.length right.length := by
  induction left generalizing right with
  | nil => simp
  | cons _ _ ih =>
    cases right with
    | nil => simp
    | cons _ right =>
      have := ih right
      rw [editDistance, length_cons, length_cons]
      split <;> omega

end NeigeCalm.Library
