import Mathlib.Data.Int.Interval

/-!
# Logs that grow by fresh identifiers

Rows are appended under identifiers larger than any given out before, up to `top`, and may be
deleted.  A mark is kept that is not below any deleted identifier.  `Later` says what holds of two
states of such a log whatever happened in between: what is stored later under an identifier that
had been given out was stored before.
-/

namespace NeigeCalm.Library

open List

structure AppendLog (α : Type) (id : α → Int) (top : Int) where
  rows : List α
  /-- The largest identifier that was ever given out. -/
  last : Int
  mark : Option Int
  ordered : rows.Pairwise fun a b => id a < id b
  within : ∀ row ∈ rows, 0 < id row ∧ id row ≤ last
  marked : ∀ m, mark = some m → m ≤ last
  started : 0 ≤ last
  fits : last ≤ top

namespace AppendLog

variable {α : Type} {id : α → Int}

def append (log : AppendLog α id top) (row : α) (fresh : log.last < id row)
    (room : id row ≤ top) : AppendLog α id top where
  rows := log.rows ++ [row]
  last := id row
  mark := log.mark
  ordered := by
    refine pairwise_append.mpr ⟨log.ordered, pairwise_singleton _ _, ?_⟩
    intro old isOld new isNew
    rw [mem_singleton.mp isNew]
    exact lt_of_le_of_lt (log.within old isOld).2 fresh
  within := by
    intro other member
    rcases mem_append.mp member with old | new
    · have bounds := log.within other old
      omega
    · rw [mem_singleton.mp new]
      have := log.started
      omega
  marked m isMark := by
    have := log.marked m isMark
    omega
  started := by
    have := log.started
    omega
  fits := room

/-- The mark after rows with these identifiers are gone. -/
def raise (mark : Option Int) (deleted : List Int) : Option Int :=
  match deleted.max? with
  | none => mark
  | some highest => some (mark.elim highest fun old => max old highest)

theorem raise_eq {mark : Option Int} (raised : raise mark deleted = some m) :
    mark = some m ∨ m ∈ deleted := by
  unfold raise at raised
  split at raised
  · exact .inl raised
  · next highest isMax =>
    have among := max?_mem isMax
    cases mark with
    | none =>
      cases raised
      exact .inr among
    | some old =>
      cases raised
      rcases max_choice old highest with same | same
      · exact .inl (congrArg some same.symm)
      · right
        change max old highest ∈ deleted
        rw [same]
        exact among

/-- The mark is not below any identifier that is gone. -/
theorem le_raise {mark : Option Int} (gone : n ∈ deleted) :
    ∃ m, raise mark deleted = some m ∧ n ≤ m := by
  unfold raise
  cases isMax : deleted.max? with
  | none =>
    rw [max?_eq_none_iff.mp isMax] at gone
    cases gone
  | some highest =>
    have le := (max?_eq_some_iff.mp isMax).2 n gone
    cases mark with
    | none => exact ⟨highest, rfl, le⟩
    | some old => exact ⟨_, rfl, le_trans le (le_max_right old highest)⟩

theorem raise_mono {mark : Option Int} (isMark : mark = some m) :
    ∃ m', raise mark deleted = some m' ∧ m ≤ m' := by
  unfold raise
  split
  · exact ⟨m, isMark, le_refl m⟩
  · next highest _ =>
    rw [isMark]
    exact ⟨_, rfl, le_max_left m highest⟩

def delete (log : AppendLog α id top) (gone : α → Bool) : AppendLog α id top where
  rows := log.rows.filter fun row => !gone row
  last := log.last
  mark := raise log.mark ((log.rows.filter gone).map id)
  ordered := log.ordered.filter _
  within row member := log.within row (mem_filter.mp member).1
  marked m isMark := by
    rcases raise_eq isMark with old | new
    · exact log.marked m old
    · obtain ⟨row, member, rfl⟩ := mem_map.mp new
      exact (log.within row (mem_filter.mp member).1).2
  started := log.started
  fits := log.fits

theorem mem_delete {log : AppendLog α id top} {gone : α → Bool} :
    row ∈ (log.delete gone).rows ↔ row ∈ log.rows ∧ gone row = false := by
  rw [delete, mem_filter, Bool.not_eq_true']

theorem mem_append {log : AppendLog α id top} {fresh : log.last < id new} {row : α} :
    row ∈ (log.append new fresh room).rows ↔ row ∈ log.rows ∨ row = new := by
  rw [append, List.mem_append, mem_singleton]

variable (log : AppendLog α id top)

/-- Rows are known by their identifiers. -/
theorem eq_of_id_eq (isRow : a ∈ log.rows) (isRow' : b ∈ log.rows) (same : id a = id b) :
    a = b := by
  have distinct : (log.rows.map id).Nodup :=
    pairwise_map.mpr (log.ordered.imp fun {a b} less => ne_of_lt less)
  exact inj_on_of_nodup_map distinct isRow isRow' same

section
variable {l : List α} (ordered : l.Pairwise fun a b => id a < id b)
include ordered

/-- What is not among the first rows is above them. -/
theorem lt_of_notMem_take (isFirst : first ∈ l.take n) (member : row ∈ l) (cut : row ∉ l.take n) :
    id first < id row := by
  have split := ordered
  rw [← take_append_drop n l] at split member
  have rest := (List.mem_append.mp member).resolve_left cut
  exact (pairwise_append.mp split).2.2 first isFirst row rest

end

/-! ## The newest row -/

/-- The row with the largest identifier of those that pass. -/
def newest (log : AppendLog α id top) (p : α → Bool) : Option α := (log.rows.filter p).getLast?

theorem getLast?_eq_some_iff {l : List α} (ordered : l.Pairwise fun a b => id a < id b) :
    l.getLast? = some row ↔ row ∈ l ∧ ∀ other ∈ l, id other ≤ id row := by
  constructor
  · intro isLast
    obtain ⟨front, rfl⟩ := List.getLast?_eq_some_iff.mp isLast
    refine ⟨by simp, fun other member => ?_⟩
    rcases List.mem_append.mp member with early | here
    · exact le_of_lt ((pairwise_append.mp ordered).2.2 other early row (by simp))
    · rw [mem_singleton.mp here]
  · rintro ⟨member, highest⟩
    obtain ⟨front, back, rfl⟩ := append_of_mem member
    cases back with
    | nil => exact List.getLast?_eq_some_iff.mpr ⟨front, rfl⟩
    | cons next =>
      have later := (pairwise_cons.mp (pairwise_append.mp ordered).2.1).1 next mem_cons_self
      have := highest next (by simp)
      omega

/-- Of the rows that pass, one has the largest identifier. -/
theorem exists_highest {l : List α} (ordered : l.Pairwise fun a b => id a < id b) {p : α → Prop}
    [DecidablePred p] (member : row ∈ l) (passes : p row) :
    ∃ highest ∈ l, p highest ∧ ∀ other ∈ l, p other → id other ≤ id highest := by
  cases isLast : (l.filter p).getLast? with
  | none =>
    have among : row ∈ l.filter p := mem_filter.mpr ⟨member, decide_eq_true passes⟩
    rw [getLast?_eq_none_iff.mp isLast] at among
    cases among
  | some highest =>
    obtain ⟨among, above⟩ := (getLast?_eq_some_iff (ordered.filter _)).mp isLast
    obtain ⟨isRow, isPassing⟩ := mem_filter.mp among
    exact ⟨highest, isRow, of_decide_eq_true isPassing, fun other isOther passes =>
      above other (mem_filter.mpr ⟨isOther, decide_eq_true passes⟩)⟩

theorem newest_eq_some {p : α → Bool} {row : α} : log.newest p = some row ↔
      row ∈ log.rows ∧ p row = true ∧ ∀ other ∈ log.rows, p other = true → id other ≤ id row := by
  rw [newest, getLast?_eq_some_iff (log.ordered.filter _)]
  simp only [mem_filter, and_imp, and_assoc]

theorem newest_eq_none {p : α → Bool} : log.newest p = none ↔ ∀ row ∈ log.rows, p row = false := by
  rw [newest, getLast?_eq_none_iff, filter_eq_nil_iff]
  simp only [Bool.not_eq_true]

/-- Deleting rows that are not the newest keeps the newest. -/
theorem newest_delete {p gone : α → Bool}
    (kept : ∀ row, log.newest p = some row → gone row = false) :
    (log.delete gone).newest p = log.newest p := by
  cases isNewest : log.newest p with
  | none =>
    rw [newest_eq_none] at isNewest ⊢
    exact fun row member => isNewest row (mem_delete.mp member).1
  | some row =>
    obtain ⟨member, passes, highest⟩ := log.newest_eq_some.mp isNewest
    exact (log.delete gone).newest_eq_some.mpr ⟨mem_delete.mpr ⟨member, kept row isNewest⟩, passes,
      fun other isOther => highest other (mem_delete.mp isOther).1⟩

/-! ## Later states -/

/-- What happened in between was appending and deleting. -/
structure Later (before after : AppendLog α id top) : Prop where
  last : before.last ≤ after.last
  old : ∀ row ∈ after.rows, id row ≤ before.last → row ∈ before.rows
  mark : ∀ m, before.mark = some m → ∃ m', after.mark = some m' ∧ m ≤ m'

theorem Later.refl : log.Later log :=
  ⟨le_refl _, fun _ member _ => member, fun m isMark => ⟨m, isMark, le_refl m⟩⟩

theorem Later.trans {a b c : AppendLog α id top} (first : a.Later b) (second : b.Later c) :
    a.Later c where
  last := le_trans first.last second.last
  old row member given :=
    first.old row (second.old row member (le_trans given first.last)) given
  mark m isMark := by
    obtain ⟨m', isMark', le⟩ := first.mark m isMark
    obtain ⟨m'', isMark'', le'⟩ := second.mark m' isMark'
    exact ⟨m'', isMark'', le_trans le le'⟩

theorem later_append (row : α) (fresh : log.last < id row) (room : id row ≤ top) :
    log.Later (log.append row fresh room) where
  last := le_of_lt fresh
  old other member given := by
    rcases mem_append.mp member with old | rfl
    · exact old
    · omega
  mark m isMark := ⟨m, isMark, le_refl m⟩

theorem later_delete (gone : α → Bool) : log.Later (log.delete gone) where
  last := le_refl _
  old _ member _ := (mem_delete.mp member).1
  mark _ isMark := raise_mono isMark

/-- The mark is not below what is deleted. -/
theorem mark_delete {gone : α → Bool} {row : α} (member : row ∈ log.rows)
    (isGone : gone row = true) : ∃ m, (log.delete gone).mark = some m ∧ id row ≤ m :=
  le_raise (mem_map_of_mem (mem_filter.mpr ⟨member, isGone⟩))

end AppendLog

end NeigeCalm.Library
