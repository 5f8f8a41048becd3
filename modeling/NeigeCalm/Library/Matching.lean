import Mathlib.Data.List.GetD
import Mathlib.Data.List.Induction
import Mathlib.Data.List.Nodup

/-!
# One-to-one assignments and common subsequences

Slots number what is new; a slot may hold the number of something old.  Passes that
assign old numbers to slots one after the other keep the assignment one-to-one as long
as each pass hands out old numbers that no slot holds (`OneToOne.assignAll`).

Two passes are here: the matches of a longest common subsequence, found by walking its
table of lengths, and greedy choice from a list of candidates.
-/

namespace NeigeCalm.Library

open List Option

/-! ## Slots -/

/-- For each new position, the old position it continues. -/
abbrev Slots := List (Option Nat)

namespace Slots

/-- Some slot holds `old`. -/
def Holds (slots : Slots) (old : Nat) : Prop := ∃ new : Nat, slots[new]? = some (some old)

/-- No two slots hold the same. -/
def OneToOne (slots : Slots) : Prop :=
  ∀ i j old : Nat, slots[i]? = some (some old) → slots[j]? = some (some old) → i = j

/-- Slot `pair.2` gets `pair.1`. -/
def assign (slots : Slots) (pair : Nat × Nat) : Slots := slots.set pair.2 (some pair.1)

def assignAll (slots : Slots) (pairs : List (Nat × Nat)) : Slots := pairs.foldl assign slots

variable {slots : Slots}

theorem getElem?_of_getD {slots : List (Option α)} {old : α}
    (held : slots.getD new none = some old) : slots[new]? = some (some old) := by
  rw [getD_eq_getElem?_getD] at held
  cases entry : slots[new]? with
  | none => rw [entry] at held; cases held
  | some => rw [entry] at held; exact congrArg some held

theorem not_holds_replicate (n : Nat) (old : Nat) : ¬ Holds (replicate n none) old := by
  rintro ⟨_, held⟩
  obtain ⟨-, same⟩ := mem_replicate.mp (mem_of_getElem? held)
  cases same

theorem oneToOne_replicate (n : Nat) : OneToOne (replicate n none) :=
  fun _ _ _ held _ => absurd ⟨_, held⟩ (not_holds_replicate n _)

theorem holds_assign (held : (slots.assign pair).Holds old) : slots.Holds old ∨ old = pair.1 := by
  obtain ⟨new, held⟩ := held
  rw [assign, getElem?_set] at held
  split at held
  · split at held
    · exact .inr (some.inj (some.inj held)).symm
    · cases held
  · exact .inl ⟨new, held⟩

theorem OneToOne.assign (once : slots.OneToOne) (free : ¬ slots.Holds pair.1) :
    (slots.assign pair).OneToOne := by
  -- a slot other than `pair.2` that held `pair.1` would have held it before
  have before : ∀ {k old : Nat}, k ≠ pair.2 → (slots.assign pair)[k]? = some (some old) →
      slots[k]? = some (some old) := fun other held => by
    rwa [Slots.assign, getElem?_set_ne other.symm] at held
  have here : ∀ {old : Nat}, (slots.assign pair)[pair.2]? = some (some old) → old = pair.1 := by
    intro old held
    rw [Slots.assign, getElem?_set] at held
    split at held
    · split at held
      · exact (some.inj (some.inj held)).symm
      · cases held
    · contradiction
  intro i j old first second
  by_cases atI : i = pair.2 <;> by_cases atJ : j = pair.2
  · rw [atI, atJ]
  · obtain rfl := here (atI ▸ first)
    exact absurd ⟨j, before atJ second⟩ free
  · obtain rfl := here (atJ ▸ second)
    exact absurd ⟨i, before atI first⟩ free
  · exact once i j old (before atI first) (before atJ second)

theorem holds_assignAll (held : (slots.assignAll pairs).Holds old) :
    slots.Holds old ∨ old ∈ pairs.map Prod.fst := by
  induction pairs generalizing slots with
  | nil => exact .inl held
  | cons _ _ ih =>
    rcases ih held with before | later
    · rcases holds_assign before with before | rfl
      · exact .inl before
      · exact .inr mem_cons_self
    · exact .inr (mem_cons_of_mem _ later)

/-- **Assigning distinct old numbers that no slot holds keeps slots one-to-one.** -/
theorem OneToOne.assignAll (once : slots.OneToOne) (distinct : (pairs.map Prod.fst).Nodup)
    (free : ∀ pair ∈ pairs, ¬ slots.Holds pair.1) : (slots.assignAll pairs).OneToOne := by
  induction pairs generalizing slots with
  | nil => exact once
  | cons pair _ ih =>
    obtain ⟨notLater, distinct⟩ := nodup_cons.mp distinct
    refine ih (once.assign (free pair mem_cons_self)) distinct fun other later held => ?_
    rcases holds_assign held with before | same
    · exact free other (mem_cons_of_mem _ later) before
    · exact notLater (mem_map.mpr ⟨other, later, same⟩)

theorem length_assignAll (slots : Slots) (pairs : List (Nat × Nat)) :
    (slots.assignAll pairs).length = slots.length := by
  induction pairs generalizing slots with
  | nil => rfl
  | cons _ _ ih => exact (ih _).trans length_set

/-- A slot that no pair names stays as it is. -/
theorem getElem?_assignAll_other (unnamed : new ∉ pairs.map Prod.snd) :
    (slots.assignAll pairs)[new]? = slots[new]? := by
  induction pairs generalizing slots with
  | nil => rfl
  | cons _ _ ih =>
    rw [map_cons, mem_cons, not_or] at unnamed
    refine (ih unnamed.2).trans ?_
    rw [assign, getElem?_set_ne (Ne.symm unnamed.1)]

/-- Slots that are each given their own number. -/
theorem getElem?_assignAll_self {indices : List Nat} (given : index ∈ indices)
    (inside : index < slots.length) :
    (slots.assignAll (indices.map fun i => (i, i)))[index]? = some (some index) := by
  induction indices using reverseRecOn with
  | nil => cases given
  | append_singleton indices last ih =>
    have lastly : slots.assignAll ((indices ++ [last]).map fun i => (i, i)) =
        (slots.assignAll (indices.map fun i => (i, i))).assign (last, last) := by
      simp [assignAll]
    rw [lastly, assign, getElem?_set]
    split
    next same =>
      have same : last = index := same
      rw [if_pos (by rw [length_assignAll]; exact same ▸ inside), same]
    next other =>
      rcases mem_append.mp given with earlier | here
      · exact ih earlier
      · exact absurd (mem_singleton.mp here).symm other

end Slots

/-! ## Longest common subsequences -/

section Lcs

variable {α : Type} [DecidableEq α]

/-- Two eligible entries match; `none` matches nothing. -/
def sameEntry (old new : Option α) : Bool := old.isSome && old == new

/-- One row of the table of lengths, from the row below it. -/
def lcsRow (old : Option α) : List (Option α) → List Nat → List Nat
  | [], _ => [0]
  | new :: others, below =>
    let right := lcsRow old others below.tail
    let cell :=
      if sameEntry old new then below.tail.headD 0 + 1 else max (below.headD 0) (right.headD 0)
    cell :: right

/-- The table: entry `i`, `j` is the length for the suffixes from `i` and `j`. -/
def lcsLengths (new : List (Option α)) : List (Option α) → List (List Nat)
  | [] => [replicate (new.length + 1) 0]
  | old :: others =>
    let rows := lcsLengths new others
    lcsRow old new (rows.headD []) :: rows

/-- The walk through the table from `i` and `j`. -/
def lcsWalk (old new : List (Option α)) (lengths : List (List Nat)) :
    Nat → Nat → Nat → List (Nat × Nat)
  | 0, _, _ => []
  | fuel + 1, i, j =>
    if i < old.length ∧ j < new.length then
      if sameEntry (old.getD i none) (new.getD j none) then
        (i, j) :: lcsWalk old new lengths fuel (i + 1) (j + 1)
      else if (lengths.getD (i + 1) []).getD j 0 ≥ (lengths.getD i []).getD (j + 1) 0 then
        lcsWalk old new lengths fuel (i + 1) j
      else lcsWalk old new lengths fuel i (j + 1)
    else []

/-- The matches of a longest common subsequence. -/
def lcsMatches (old new : List (Option α)) : List (Nat × Nat) :=
  lcsWalk old new (lcsLengths new old) (old.length + new.length) 0 0

variable {new : List (Option α)}

theorem isSome_of_sameEntry {old new : Option α} (same : sameEntry old new = true) :
    old.isSome = true ∧ new.isSome = true := by
  obtain ⟨eligible, equal⟩ := Bool.and_eq_true_iff.mp same
  exact ⟨eligible, by rwa [← eq_of_beq equal]⟩

/-- Matches are made of equal entries, from the start of the walk on. -/
theorem mem_lcsWalk (inside : pair ∈ lcsWalk old new lengths fuel i j) :
    (i ≤ pair.1 ∧ j ≤ pair.2) ∧ pair.1 < old.length ∧
      sameEntry (old.getD pair.1 none) (new.getD pair.2 none) = true := by
  induction fuel generalizing i j with
  | zero => cases inside
  | succ _ ih =>
    rw [lcsWalk] at inside
    split at inside
    next inRange =>
      split at inside
      next same =>
        rcases mem_cons.mp inside with rfl | later
        · exact ⟨⟨Nat.le_refl _, Nat.le_refl _⟩, inRange.1, same⟩
        · obtain ⟨above, rest⟩ := ih later
          exact ⟨by omega, rest⟩
      next =>
        split at inside
        · obtain ⟨_, rest⟩ := ih inside
          exact ⟨by omega, rest⟩
        · obtain ⟨_, rest⟩ := ih inside
          exact ⟨by omega, rest⟩
    next => cases inside

/-- Matches go forward in both sequences. -/
theorem lcsWalk_increasing (old new : List (Option α)) (lengths : List (List Nat))
    (fuel i j : Nat) :
    (lcsWalk old new lengths fuel i j).Pairwise fun a b => a.1 < b.1 ∧ a.2 < b.2 := by
  induction fuel generalizing i j with
  | zero => exact List.Pairwise.nil
  | succ _ ih =>
    rw [lcsWalk]
    split
    · split
      · exact pairwise_cons.mpr ⟨fun later inside => (mem_lcsWalk inside).1, ih _ _⟩
      · split <;> exact ih _ _
    · exact List.Pairwise.nil

/-- Pairs of positions that go forward in both sequences, each of two equal eligible entries. -/
structure Common (old new : List (Option α)) (pairs : List (Nat × Nat)) : Prop where
  increasing : pairs.Pairwise fun a b => a.1 < b.1 ∧ a.2 < b.2
  same : ∀ pair ∈ pairs, ∃ entry,
    old[pair.1]? = some (some entry) ∧ new[pair.2]? = some (some entry)

theorem common_lcsMatches (old new : List (Option α)) : Common old new (lcsMatches old new) := by
  refine ⟨lcsWalk_increasing _ _ _ _ _ _, fun pair inside => ?_⟩
  obtain ⟨-, -, same⟩ := mem_lcsWalk inside
  obtain ⟨eligible, equal⟩ := Bool.and_eq_true_iff.mp same
  obtain ⟨entry, isEntry⟩ := isSome_iff_exists.mp eligible
  refine ⟨entry, Slots.getElem?_of_getD isEntry, Slots.getElem?_of_getD ?_⟩
  rw [← isEntry]
  exact (eq_of_beq equal).symm

/-- The table's entry for the suffixes from `i` and `j`. -/
def lcsCell (lengths : List (List Nat)) (i j : Nat) : Nat := (lengths.getD i []).getD j 0

theorem getD_lcsRow :
    (lcsRow old new below).getD j 0 =
      if j < new.length then
        if sameEntry old (new.getD j none) then below.getD (j + 1) 0 + 1
        else max (below.getD j 0) ((lcsRow old new below).getD (j + 1) 0)
      else 0 := by
  induction new generalizing below j with
  | nil => cases j <;> rfl
  | cons _ others ih =>
    rw [lcsRow]
    cases j with
    | zero => rcases below with _ | ⟨_, _ | _⟩ <;> cases lcsRow old others _ <;> rfl
    | succ =>
      rw [getD_cons_succ, ih]
      cases below <;> simp

/-- The recurrence that the table is filled by. -/
theorem lcsCell_eq (old new : List (Option α)) (i j : Nat) :
    lcsCell (lcsLengths new old) i j =
      if i < old.length ∧ j < new.length then
        if sameEntry (old.getD i none) (new.getD j none) then
          lcsCell (lcsLengths new old) (i + 1) (j + 1) + 1
        else max (lcsCell (lcsLengths new old) (i + 1) j) (lcsCell (lcsLengths new old) i (j + 1))
      else 0 := by
  induction old generalizing i with
  | nil => cases i <;> simp [lcsCell, lcsLengths]
  | cons _ others ih =>
    cases i with
    | zero =>
      simp only [lcsCell, lcsLengths, getD_cons_zero, getD_cons_succ]
      rw [getD_lcsRow]
      cases lcsLengths new others <;> simp
    | succ i => simpa [lcsCell, lcsLengths] using ih i

/-- The walk makes as many matches as the table has for its start. -/
theorem length_lcsWalk (enough : old.length - i + (new.length - j) ≤ fuel) :
    (lcsWalk old new (lcsLengths new old) fuel i j).length = lcsCell (lcsLengths new old) i j := by
  induction fuel generalizing i j with
  | zero => rw [lcsCell_eq, if_neg (by omega)]; rfl
  | succ _ ih =>
    rw [lcsWalk, lcsCell_eq]
    split
    · split
      · rw [length_cons, ih (by omega)]
      · split
        next more => exact (ih (by omega)).trans (Nat.max_eq_left more).symm
        next less => exact (ih (by omega)).trans (Nat.max_eq_right (Nat.le_of_not_le less)).symm
    · rfl

/-- No common subsequence from `i` and `j` on is longer than the table's entry. -/
theorem Common.length_le (common : Common old new pairs)
    (ahead : ∀ pair ∈ pairs, i ≤ pair.1 ∧ j ≤ pair.2) :
    pairs.length ≤ lcsCell (lcsLengths new old) i j := by
  induction size : old.length - i + (new.length - j) using Nat.strongRecOn
    generalizing i j pairs with
  | _ size ih =>
  rcases pairs with _ | ⟨first, rest⟩
  · exact Nat.zero_le _
  obtain ⟨beyond, increasing⟩ := pairwise_cons.mp common.increasing
  obtain ⟨_, isOld, isNew⟩ := common.same first mem_cons_self
  obtain ⟨_, -⟩ := List.getElem?_eq_some_iff.mp isOld
  obtain ⟨_, -⟩ := List.getElem?_eq_some_iff.mp isNew
  have start := ahead first mem_cons_self
  have fromFirst : ∀ pair ∈ first :: rest, first.1 ≤ pair.1 ∧ first.2 ≤ pair.2 := by
    intro pair member
    rcases mem_cons.mp member with rfl | later
    · omega
    · have := beyond pair later
      omega
  rw [lcsCell_eq, if_pos (by omega)]
  split
  · have others : Common old new rest :=
      ⟨increasing, fun pair later => common.same pair (mem_cons_of_mem _ later)⟩
    refine Nat.succ_le_succ (ih _ (by omega) others (fun pair later => ?_) rfl)
    have := beyond pair later
    omega
  next different =>
    -- the first pair is not the two first entries, so one of them is not matched
    by_cases level : first.1 = i
    · have notBoth : first.2 ≠ j := by
        rintro rfl
        subst level
        simp [sameEntry, getD_eq_getElem?_getD, isOld, isNew] at different
      refine Nat.le_trans (ih _ (by omega) common (fun pair member => ?_) rfl)
        (Nat.le_max_right _ _)
      have := fromFirst pair member
      omega
    · refine Nat.le_trans (ih _ (by omega) common (fun pair member => ?_) rfl) (Nat.le_max_left _ _)
      have := fromFirst pair member
      omega

/-- **No common subsequence has more matches.** -/
theorem Common.length_le_lcsMatches (common : Common old new pairs) :
    pairs.length ≤ (lcsMatches old new).length := by
  rw [lcsMatches, length_lcsWalk (by omega)]
  exact common.length_le fun _ _ => ⟨Nat.zero_le _, Nat.zero_le _⟩

/-- A sequence of eligible entries is matched to itself entry by entry. -/
theorem lcsMatches_self (entries : List (Option α)) (eligible : ∀ entry ∈ entries, entry.isSome) :
    lcsMatches entries entries = (range entries.length).map fun i => (i, i) := by
  have walk : ∀ (lengths : List (List Nat)) (left fuel i : Nat), left ≤ fuel →
      i + left = entries.length →
      lcsWalk entries entries lengths fuel i i = (range' i left).map fun i => (i, i) := by
    intro lengths left
    induction left with
    | zero =>
      intro fuel i _ atEnd
      cases fuel with
      | zero => rfl
      | succ => rw [lcsWalk, if_neg (by omega)]; rfl
    | succ _ ih =>
      intro fuel i enough inRange
      obtain ⟨fuel, rfl⟩ : ∃ n, fuel = n + 1 := ⟨fuel - 1, by omega⟩
      have same : sameEntry (entries.getD i none) (entries.getD i none) = true := by
        rw [getD_eq_getElem _ _ (by omega)]
        simp [sameEntry, eligible _ (getElem_mem _)]
      rw [lcsWalk, if_pos (by omega), if_pos same, ih fuel (i + 1) (by omega) (by omega)]
      rfl
  rw [lcsMatches, walk _ entries.length _ 0 (by omega) (by omega), range_eq_range']

end Lcs

/-! ## Greedy choice -/

/-- The candidates, first come first served: each old and each new number once. -/
def greedy : List (Nat × Nat) → List Nat → List Nat → List (Nat × Nat)
  | [], _, _ => []
  | (old, new) :: rest, oldUsed, newUsed =>
    if old ∉ oldUsed ∧ new ∉ newUsed then
      (old, new) :: greedy rest (old :: oldUsed) (new :: newUsed)
    else greedy rest oldUsed newUsed

theorem mem_greedy (chosen : pair ∈ greedy candidates oldUsed newUsed) :
    pair ∈ candidates ∧ pair.1 ∉ oldUsed := by
  induction candidates generalizing oldUsed newUsed with
  | nil => cases chosen
  | cons _ _ ih =>
    rw [greedy] at chosen
    split at chosen
    next free =>
      rcases mem_cons.mp chosen with rfl | later
      · exact ⟨mem_cons_self, free.1⟩
      · obtain ⟨inRest, unused⟩ := ih later
        exact ⟨mem_cons_of_mem _ inRest, fun used => unused (mem_cons_of_mem _ used)⟩
    next =>
      obtain ⟨inRest, unused⟩ := ih chosen
      exact ⟨mem_cons_of_mem _ inRest, unused⟩

theorem greedy_nodup (candidates : List (Nat × Nat)) (oldUsed newUsed : List Nat) :
    ((greedy candidates oldUsed newUsed).map Prod.fst).Nodup := by
  induction candidates generalizing oldUsed newUsed with
  | nil => exact nodup_nil
  | cons _ _ ih =>
    rw [greedy]
    split
    · refine nodup_cons.mpr ⟨fun again => ?_, ih _ _⟩
      obtain ⟨_, later, same⟩ := mem_map.mp again
      exact (mem_greedy later).2 (same ▸ mem_cons_self)
    · exact ih _ _

end NeigeCalm.Library
