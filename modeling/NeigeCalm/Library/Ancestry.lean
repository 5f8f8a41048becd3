import Mathlib.Data.List.Lattice

/-!
# Ancestry

A store of nodes, each with at most one parent.  `parent k` is `none` when `k` is not stored and
`some p` when it is, so that a parent may name a node that is gone.  `Reach` is what the roots
lead to by parents, `nth` the ancestor a number of steps up, and `collect` a breadth-first walk
that takes each stored node once.
-/

namespace NeigeCalm.Library

open List Option

namespace Ancestry

variable {K : Type}

/-- The stored nodes that a root leads to. -/
inductive Reach (parent : K → Option (Option K)) (root : K → Prop) : K → Prop
  | root : root k → (parent k).isSome = true → Reach parent root k
  | next : Reach parent root k → parent k = some (some p) →
      (parent p).isSome = true → Reach parent root p

section Reach

variable {root : K → Prop}

theorem Reach.stored (reach : Reach parent root k) : (parent k).isSome = true := by
  cases reach with
  | root _ stored | next _ _ stored => exact stored

/-- A store that holds more nodes and reaches the roots reaches what they lead to. -/
theorem Reach.mono (more : ∀ {k p}, parent k = some p → parent' k = some p)
    (roots : ∀ {k}, root k → (parent k).isSome = true → Reach parent' root' k)
    (reach : Reach parent root k) : Reach parent' root' k := by
  induction reach with
  | root isRoot stored => exact roots isRoot stored
  | next _ isParent stored ih =>
    obtain ⟨up, isUp⟩ := isSome_iff_exists.mp stored
    exact ih.next (more isParent) (isSome_iff_exists.mpr ⟨up, more isUp⟩)

end Reach

/-! ## Ancestors by distance -/

/-- The stored ancestor a number of parents up. -/
def nth (parent : K → Option (Option K)) : Nat → K → Option K
  | 0, k => if (parent k).isSome then some k else none
  | n + 1, k =>
    match parent k with
    | some (some p) => nth parent n p
    | _ => none

section Nth

theorem nth_zero : nth parent 0 k = some x ↔ k = x ∧ (parent k).isSome = true := by
  rw [nth]
  split
  next stored => exact ⟨fun same => ⟨some.inj same, stored⟩, fun both => by rw [both.1]⟩
  next missing => exact ⟨nofun, fun both => absurd both.2 missing⟩

theorem nth_succ : nth parent (n + 1) k = some x ↔
    ∃ p, parent k = some (some p) ∧ nth parent n p = some x := by
  rw [nth]
  split
  next p isParent =>
    rw [isParent]
    exact ⟨fun up => ⟨p, rfl, up⟩, fun ⟨_, same, up⟩ => some.inj (some.inj same) ▸ up⟩
  next other => exact ⟨nofun, fun ⟨p, isParent, _⟩ => absurd isParent (other p)⟩

theorem nth_start (up : nth parent n k = some x) : (parent k).isSome = true := by
  cases n with
  | zero => exact (nth_zero.mp up).2
  | succ =>
    obtain ⟨_, isUp, _⟩ := nth_succ.mp up
    exact isSome_iff_exists.mpr ⟨_, isUp⟩

theorem nth_stored (up : nth parent n k = some x) : (parent x).isSome = true := by
  induction n generalizing k with
  | zero =>
    obtain ⟨rfl, stored⟩ := nth_zero.mp up
    exact stored
  | succ n ih =>
    obtain ⟨p, _, up⟩ := nth_succ.mp up
    exact ih up

theorem Reach.nth {root : K → Prop} (reach : Reach parent root k)
    (up : Ancestry.nth parent n k = some x) : Reach parent root x := by
  induction n generalizing k with
  | zero =>
    obtain ⟨rfl, _⟩ := nth_zero.mp up
    exact reach
  | succ n ih =>
    obtain ⟨p, isParent, up⟩ := nth_succ.mp up
    exact ih (reach.next isParent (nth_start up)) up

/-- A store that still holds a chain up to an ancestor leads to it. -/
theorem nth_of_kept (up : nth parent n k = some x)
    (kept : ∀ m ≤ n, ∀ y, nth parent m k = some y → parent' y = parent y) :
    nth parent' n k = some x := by
  induction n generalizing k with
  | zero =>
    obtain ⟨rfl, stored⟩ := nth_zero.mp up
    exact nth_zero.mpr ⟨rfl, kept 0 (Nat.le_refl 0) k up ▸ stored⟩
  | succ n ih =>
    obtain ⟨p, isParent, up⟩ := nth_succ.mp up
    have here : nth parent 0 k = some k := nth_zero.mpr ⟨rfl, by rw [isParent]; rfl⟩
    refine nth_succ.mpr ⟨p, (kept 0 (Nat.zero_le _) k here).trans isParent, ih up ?_⟩
    intro m within y there
    exact kept (m + 1) (Nat.succ_le_succ within) y (nth_succ.mpr ⟨p, isParent, there⟩)

end Nth

/-! ## The walk -/

/-- From `todo` by parents, each of the nodes `rest` at most once. -/
def collect [BEq K] (parent : K → Option (Option K)) : Nat → List K → List K → List K
  | 0, _, _ => []
  | fuel + 1, rest, todo =>
    let found := rest.filter fun k => todo.contains k
    if found.isEmpty then []
    else found ++ collect parent fuel (rest.filter fun k => !todo.contains k)
      (found.filterMap fun k => (parent k).join)

section Walk

variable [BEq K] [LawfulBEq K] {parent : K → Option (Option K)}

/-- A walk under way: what is stored is done or left, and what the roots and the nodes done name
is done or to do. -/
structure Walk (parent : K → Option (Option K)) (root : K → Prop) (done rest todo : List K) :
    Prop where
  all : ∀ k, (parent k).isSome = true → k ∈ done ∨ k ∈ rest
  roots : ∀ k, root k → (parent k).isSome = true → k ∈ done ∨ k ∈ todo
  closed : ∀ k ∈ done, ∀ p, parent k = some (some p) → (parent p).isSome = true →
    p ∈ done ∨ p ∈ todo

namespace Walk

omit [BEq K] [LawfulBEq K] in
/-- With nothing left to do, what is done is all. -/
theorem mem_done (walk : Walk parent root done rest todo) (idle : ∀ k ∈ rest, k ∉ todo)
    (reach : Reach parent root k) : k ∈ done := by
  have settled : ∀ k, (parent k).isSome = true → k ∈ done ∨ k ∈ todo → k ∈ done := by
    intro k stored either
    rcases either with isDone | isTodo
    · exact isDone
    · exact (walk.all k stored).resolve_right fun isRest => idle k isRest isTodo
  induction reach with
  | root isRoot stored => exact settled _ stored (walk.roots _ isRoot stored)
  | next _ isParent stored ih => exact settled _ stored (walk.closed _ ih _ isParent stored)

/-- One round. -/
theorem advance (walk : Walk parent root done rest todo) :
    Walk parent root (done ++ rest.filter fun k => todo.contains k)
      (rest.filter fun k => !todo.contains k)
      ((rest.filter fun k => todo.contains k).filterMap fun k => (parent k).join) := by
  have settle : ∀ k, (parent k).isSome = true → k ∈ done ∨ k ∈ todo →
      k ∈ done ++ rest.filter fun k => todo.contains k := by
    intro k stored either
    rcases either with isDone | isTodo
    · exact mem_append_left _ isDone
    · rcases walk.all k stored with isDone | isRest
      · exact mem_append_left _ isDone
      · exact mem_append_right _ (mem_filter.mpr ⟨isRest, contains_iff_mem.mpr isTodo⟩)
  refine ⟨fun k stored => ?_, fun k isRoot stored => ?_, fun k isDone p isParent stored => ?_⟩
  · rcases walk.all k stored with isDone | isRest
    · exact .inl (mem_append_left _ isDone)
    · by_cases isTodo : todo.contains k = true
      · exact .inl (mem_append_right _ (mem_filter.mpr ⟨isRest, isTodo⟩))
      · exact .inr (mem_filter.mpr ⟨isRest, by simpa using isTodo⟩)
  · exact .inl (settle k stored (walk.roots k isRoot stored))
  · rcases mem_append.mp isDone with before | now
    · exact .inl (settle p stored (walk.closed k before p isParent stored))
    · exact .inr (mem_filterMap.mpr ⟨k, now, by rw [isParent]; rfl⟩)

theorem mem_collect (walk : Walk parent root done rest todo) (enough : rest.length ≤ fuel)
    (reach : Reach parent root k) : k ∈ done ∨ k ∈ collect parent fuel rest todo := by
  induction fuel generalizing done rest todo with
  | zero =>
    obtain rfl := length_eq_zero_iff.mp (Nat.le_zero.mp enough)
    exact .inl (walk.mem_done (fun _ impossible => absurd impossible not_mem_nil) reach)
  | succ fuel ih =>
    rw [collect]
    split
    next nothing =>
      rw [List.isEmpty_iff, filter_eq_nil_iff] at nothing
      exact .inl (walk.mem_done
        (fun k isRest isTodo => nothing k isRest (contains_iff_mem.mpr isTodo)) reach)
    next something =>
      have shorter : (rest.filter fun k => !todo.contains k).length ≤ fuel := by
        have both := length_eq_length_filter_add (l := rest) fun k => todo.contains k
        have some : (rest.filter fun k => todo.contains k).length ≠ 0 := by
          intro none
          exact something (List.isEmpty_iff.mpr (length_eq_zero_iff.mp none))
        omega
      rcases ih walk.advance shorter with isDone | later
      · rcases List.mem_append.mp isDone with before | now
        · exact .inl before
        · exact .inr (mem_append_left _ now)
      · exact .inr (mem_append_right _ later)

end Walk

/-- **The walk is complete.** -/
theorem Reach.mem_collect {stored todo : List K} (all : ∀ k, (parent k).isSome = true → k ∈ stored)
    (reach : Reach parent (· ∈ todo) k) : k ∈ collect parent stored.length stored todo := by
  have start : Walk parent (· ∈ todo) [] stored todo :=
    ⟨fun k isStored => .inr (all k isStored), fun _ isRoot _ => .inr isRoot, nofun⟩
  exact (start.mem_collect (Nat.le_refl _) reach).resolve_left not_mem_nil

end Walk

end Ancestry

end NeigeCalm.Library
