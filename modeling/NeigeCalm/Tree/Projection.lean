import NeigeCalm.Task
import NeigeCalm.Tree.Share
import Mathlib.Data.List.Sort

/-!
# Projecting declarations onto task rows

The report of a track declares tasks; the projection turns the declarations into rows.  Rows
past `pending` are fixed: the projection counts the planner's among them and lets at most the
remaining capacity of planner declarations have a pending row.
-/

namespace NeigeCalm.Tree

open Library List

/-- The author of the planner's declarations. -/
def plannerDeclarationAuthor : Text := "spec".toList

def defaultPlannerTaskCeiling : Int := 32

def usizeMax : Nat := 2 ^ 64 - 1

/-- A declaration of the report.  `diagnosed` is whether the checks of its own content, its
dependencies, gate, references and release found anything; `drifted` whether it differs from
the row that froze it. -/
structure TaskDeclaration where
  blockIndex : Option Nat
  key : Text
  declaredBy : Text
  ready : Bool
  tombstone : Bool
  diagnosed : Bool
  drifted : Bool
deriving DecidableEq

structure TaskRow where
  key : Text
  status : TaskStatus
  declaredBy : Text
deriving DecidableEq

/-- The current executions of a track: one row a key. -/
structure TaskTable where
  rows : List TaskRow
  distinct : (rows.map TaskRow.key).Nodup
deriving DecidableEq

def TaskRow.isPlanner (row : TaskRow) : Bool := row.declaredBy == plannerDeclarationAuthor

/-- The planner's tasks in flight. -/
def TaskTable.occupied (table : TaskTable) : Nat :=
  table.rows.countP fun row => row.status.isInFlight && row.isPlanner

/-- The planner's tasks that have not ended. -/
def TaskTable.unfinished (table : TaskTable) : Nat :=
  table.rows.countP fun row => !row.status.isTerminal && row.isPlanner

/-! ## Admission -/

/-- How many planner declarations may have a pending row. -/
def capacity (plannerTaskCeiling : Option Int) (term : TrackTreeTerm) (table : TaskTable) : Nat :=
  let ceiling := effectiveLimit plannerTaskCeiling defaultPlannerTaskCeiling
  let ceilingCapacity := max (ceiling - table.occupied) 0
  match term with
  | .rootUnresolved => 0
  | .share share =>
    if share.admissionFrozen then 0
    else (min ceilingCapacity (max (share.share - table.occupied) 0)).toNat

/-- The row that fixes a key, if its execution has started. -/
def TaskTable.frozen? (table : TaskTable) (key : Text) : Option TaskRow :=
  table.rows.find? fun row => row.key == key && row.status != .pending

/-- The verdict on a declaration before capacity is considered. -/
def judge (term : TrackTreeTerm) (table : TaskTable) (declaration : TaskDeclaration) : Bool :=
  let clean := declaration.ready && !declaration.tombstone && !declaration.diagnosed &&
    match term with
    | .rootUnresolved => false
    | .share _ => true
  match table.frozen? declaration.key with
  | none => clean
  | some row => clean && !declaration.drifted && row.status.isInFlight

/-- Whether a declaration competes for capacity. -/
def isCandidate (term : TrackTreeTerm) (table : TaskTable) (declaration : TaskDeclaration) :
    Bool :=
  judge term table declaration && declaration.declaredBy == plannerDeclarationAuthor &&
    (table.frozen? declaration.key).isNone

/-- Document order, then key. -/
def TaskDeclaration.rank (declaration : TaskDeclaration) : ℕ ×ₗ List Char :=
  toLex (declaration.blockIndex.getD usizeMax, declaration.key)

/-- The candidates that get a slot, each with its index. -/
def admitted (plannerTaskCeiling : Option Int) (term : TrackTreeTerm) (table : TaskTable)
    (declarations : List TaskDeclaration) : List (TaskDeclaration × Nat) :=
  ((declarations.zipIdx.filter fun entry => isCandidate term table entry.1).insertionSort
    fun first second => first.1.rank ≤ second.1.rank).take (capacity plannerTaskCeiling term table)

/-- The declarations whose verdict is schedulable once capacity is spent. -/
def scheduled (plannerTaskCeiling : Option Int) (term : TrackTreeTerm) (table : TaskTable)
    (declarations : List TaskDeclaration) : List TaskDeclaration :=
  (declarations.zipIdx.filter fun entry =>
    judge term table entry.1 &&
      (!isCandidate term table entry.1 ||
        (admitted plannerTaskCeiling term table declarations).contains entry)).map Prod.fst

/-! ## Writing the rows -/

/-- The rows that satisfy `keep`. -/
def TaskTable.filter (table : TaskTable) (keep : TaskRow → Bool) : TaskTable where
  rows := table.rows.filter keep
  distinct := table.distinct.sublist (filter_sublist.map _)

/-- The rows with `edit` applied to each, which leaves the key alone. -/
def TaskTable.map (table : TaskTable) (edit : TaskRow → TaskRow)
    (keeps : ∀ row, (edit row).key = row.key) : TaskTable where
  rows := table.rows.map edit
  distinct := by
    simpa only [map_map, Function.comp_def, keeps] using table.distinct

/-- The table with a row for a key it has none for. -/
def TaskTable.insert (table : TaskTable) (row : TaskRow)
    (fresh : row.key ∉ table.rows.map TaskRow.key) : TaskTable where
  rows := table.rows ++ [row]
  distinct := by
    rw [map_append]
    exact table.distinct.append (nodup_singleton _) (by simpa using fresh)

/-- The update of a row on a conflict: only a pending row follows its declaration. -/
def TaskRow.follow (declaration : TaskDeclaration) (row : TaskRow) : TaskRow :=
  if row.key = declaration.key ∧ row.status = .pending then
    { row with declaredBy := declaration.declaredBy }
  else row

theorem TaskRow.follow_key (declaration : TaskDeclaration) (row : TaskRow) :
    (row.follow declaration).key = row.key := by
  unfold TaskRow.follow
  split <;> rfl

theorem TaskRow.follow_status (declaration : TaskDeclaration) (row : TaskRow) :
    (row.follow declaration).status = row.status := by
  unfold TaskRow.follow
  split <;> rfl

/-- `INSERT … ON CONFLICT(id) DO UPDATE … WHERE tasks.status='pending'`. -/
def TaskTable.upsert (table : TaskTable) (declaration : TaskDeclaration) : TaskTable :=
  if known : declaration.key ∈ table.rows.map TaskRow.key then
    table.map (TaskRow.follow declaration) (TaskRow.follow_key declaration)
  else
    table.insert
      { key := declaration.key, status := .pending, declaredBy := declaration.declaredBy } known

/-- Whether some schedulable declaration carries the key; a blank key is never looked up. -/
def schedulesKey (schedulable : List TaskDeclaration) (key : Text) : Bool :=
  key != [] && schedulable.any fun declaration => declaration.key == key

def projectTasks (plannerTaskCeiling : Option Int) (term : TrackTreeTerm)
    (declarations : List TaskDeclaration) (table : TaskTable) : TaskTable :=
  let schedulable := scheduled plannerTaskCeiling term table declarations
  let kept := table.filter fun row =>
    row.status != .pending || schedulesKey schedulable row.key
  schedulable.foldl TaskTable.upsert kept

/-! ## What a projection can do -/

/-- Started rows stay as they are. -/
def SameStarted (before after : TaskTable) : Prop :=
  ∀ row, row.status ≠ .pending → (row ∈ after.rows ↔ row ∈ before.rows)

theorem TaskRow.follow_started {declaration : TaskDeclaration} {row : TaskRow}
    (started : row.status ≠ .pending) : row.follow declaration = row := by
  rw [TaskRow.follow, if_neg fun both => started both.2]

variable (plannerTaskCeiling : Option Int) (term : TrackTreeTerm)
    (declarations : List TaskDeclaration) (table : TaskTable)

theorem TaskTable.upsert_rows (declaration : TaskDeclaration) :
    (table.upsert declaration).rows = table.rows.map (TaskRow.follow declaration) ∨
      (table.upsert declaration).rows = table.rows ++
        [{ key := declaration.key, status := .pending, declaredBy := declaration.declaredBy }] := by
  unfold TaskTable.upsert
  split
  · exact .inl rfl
  · exact .inr rfl

theorem TaskTable.upsert_sameStarted (declaration : TaskDeclaration) :
    SameStarted table (table.upsert declaration) := by
  intro row started
  rcases table.upsert_rows declaration with updated | inserted
  · rw [updated, mem_map]
    constructor
    · rintro ⟨_, held, rfl⟩
      rw [TaskRow.follow_status] at started
      rwa [TaskRow.follow_started started]
    · intro held
      exact ⟨row, held, TaskRow.follow_started started⟩
  · rw [inserted, mem_append, mem_singleton, or_iff_left]
    rintro rfl
    exact started rfl

/-- A pending row after an upsert is the declaration's, or was there under another key. -/
theorem TaskTable.upsert_pending {table : TaskTable} {declaration : TaskDeclaration} {row : TaskRow}
    (held : row ∈ (table.upsert declaration).rows) (pending : row.status = .pending) :
    row.key = declaration.key ∧ row.declaredBy = declaration.declaredBy ∨
      row.key ≠ declaration.key ∧ row ∈ table.rows := by
  unfold TaskTable.upsert at held
  split at held
  next known =>
    obtain ⟨earlier, there, rfl⟩ := mem_map.mp held
    rw [TaskRow.follow_status] at pending
    by_cases same : earlier.key = declaration.key
    · left
      rw [TaskRow.follow, if_pos ⟨same, pending⟩]
      exact ⟨same, rfl⟩
    · right
      rw [TaskRow.follow, if_neg fun both => same both.1]
      exact ⟨same, there⟩
  next unknown =>
    rcases mem_append.mp held with there | new
    · right
      refine ⟨?_, there⟩
      rintro same
      exact unknown (same ▸ mem_map_of_mem there)
    · left
      rw [mem_singleton.mp new]
      exact ⟨rfl, rfl⟩

/-- What a run of upserts leaves: pending rows that follow one of the declarations, and rows no
declaration is about. -/
structure Followed (declarations : List TaskDeclaration) (before after : TaskTable) : Prop where
  started : SameStarted before after
  pending : ∀ row ∈ after.rows, row.status = .pending →
    (∃ declaration ∈ declarations,
      row.key = declaration.key ∧ row.declaredBy = declaration.declaredBy) ∨
    row ∈ before.rows ∧ ∀ declaration ∈ declarations, row.key ≠ declaration.key

theorem foldl_upsert_followed :
    Followed declarations table (declarations.foldl TaskTable.upsert table) := by
  induction declarations generalizing table with
  | nil => exact ⟨fun _ _ => Iff.rfl, fun row held _ => .inr ⟨held, by simp⟩⟩
  | cons declaration _ ih =>
    obtain ⟨started, pending⟩ := ih (table.upsert declaration)
    refine ⟨fun row past => ?_, fun row held waiting => ?_⟩
    · exact (started row past).trans (table.upsert_sameStarted declaration row past)
    · rcases pending row held waiting with ⟨later, among, same⟩ | ⟨there, others⟩
      · exact .inl ⟨later, mem_cons_of_mem _ among, same⟩
      · rcases TaskTable.upsert_pending there waiting with same | ⟨other, earlier⟩
        · exact .inl ⟨declaration, mem_cons_self, same⟩
        · refine .inr ⟨earlier, fun some among => ?_⟩
          rcases mem_cons.mp among with rfl | among
          · exact other
          · exact others some among

/-- **What a projection does.**  Started rows stay, and every pending row follows a declaration
that is schedulable. -/
theorem projectTasks_spec :
    SameStarted table (projectTasks plannerTaskCeiling term declarations table) ∧
      ∀ row ∈ (projectTasks plannerTaskCeiling term declarations table).rows,
        row.status = .pending →
        ∃ declaration ∈ scheduled plannerTaskCeiling term table declarations,
          row.key = declaration.key ∧ row.declaredBy = declaration.declaredBy := by
  obtain ⟨started, pending⟩ := foldl_upsert_followed
    (scheduled plannerTaskCeiling term table declarations)
    (table.filter fun row => row.status != .pending ||
      schedulesKey (scheduled plannerTaskCeiling term table declarations) row.key)
  refine ⟨fun row past => (started row past).trans ?_, fun row held waiting => ?_⟩
  · simp [TaskTable.filter, past]
  · rcases pending row held waiting with follows | ⟨there, orphan⟩
    · exact follows
    · -- A pending row that stayed has its key among the schedulable declarations.
      have scheduledKey := (mem_filter.mp there).2
      simp only [waiting, bne_self_eq_false, Bool.false_or, schedulesKey, Bool.and_eq_true,
        any_eq_true, beq_iff_eq] at scheduledKey
      obtain ⟨-, declaration, among, same⟩ := scheduledKey
      exact absurd same.symm (orphan declaration among)

/-! ## The bound -/

theorem SameStarted.perm {before after : TaskTable} (same : SameStarted before after) :
    (before.rows.filter fun row => row.status != .pending).Perm
      (after.rows.filter fun row => row.status != .pending) := by
  apply (perm_ext_iff_of_nodup _ _).mpr
  · intro row
    simp only [mem_filter, bne_iff_ne, ne_eq]
    constructor
    · rintro ⟨held, started⟩
      exact ⟨(same row started).mpr held, started⟩
    · rintro ⟨held, started⟩
      exact ⟨(same row started).mp held, started⟩
  · exact before.distinct.of_map.filter _
  · exact after.distinct.of_map.filter _

theorem countP_inFlight :
    table.occupied = (table.rows.filter fun row => row.status != .pending).countP
      fun row => row.status.isInFlight && row.isPlanner := by
  rw [TaskTable.occupied, countP_filter]
  apply countP_congr
  intro row _
  rcases row with ⟨_, status, _⟩
  cases status <;> simp [TaskStatus.isInFlight]

theorem SameStarted.occupied {before after : TaskTable} (same : SameStarted before after) :
    after.occupied = before.occupied := by
  rw [countP_inFlight, countP_inFlight, same.perm.countP_eq]

/-- The planner's rows that are still pending. -/
def TaskTable.waiting (table : TaskTable) : List TaskRow :=
  table.rows.filter fun row => row.status == .pending && row.isPlanner

theorem TaskTable.unfinished_eq : table.unfinished = table.occupied + table.waiting.length := by
  unfold TaskTable.unfinished TaskTable.occupied TaskTable.waiting
  induction table.rows with
  | nil => rfl
  | cons row _ ih =>
    rcases row with ⟨key, status, author⟩
    simp only [countP_cons, filter_cons, ih]
    cases status <;> cases TaskRow.isPlanner ⟨key, _, author⟩ <;>
      simp [TaskStatus.isTerminal, TaskStatus.isInFlight] <;> omega

theorem mem_scheduled {plannerTaskCeiling : Option Int} {term : TrackTreeTerm}
    {table : TaskTable} {declarations : List TaskDeclaration} {declaration : TaskDeclaration}
    (among : declaration ∈ scheduled plannerTaskCeiling term table declarations) :
    judge term table declaration ∧
      (isCandidate term table declaration →
        declaration ∈ (admitted plannerTaskCeiling term table declarations).map Prod.fst) := by
  obtain ⟨_, chosen, rfl⟩ := mem_map.mp among
  have verdict := (mem_filter.mp chosen).2
  simp only [Bool.and_eq_true, Bool.or_eq_true, Bool.not_eq_true', contains_iff_mem] at verdict
  refine ⟨verdict.1, fun candidate => ?_⟩
  rcases verdict.2 with plain | slot
  · cases candidate.symm.trans plain
  · exact mem_map_of_mem slot

/-- A pending planner row took one of the admitted slots. -/
theorem waiting_admitted {row : TaskRow}
    (waits : row ∈ (projectTasks plannerTaskCeiling term declarations table).waiting) :
    row.key ∈ (admitted plannerTaskCeiling term table declarations).map
      fun entry => entry.1.key := by
  obtain ⟨started, pending⟩ := projectTasks_spec plannerTaskCeiling term declarations table
  obtain ⟨held, status⟩ := mem_filter.mp waits
  simp only [TaskRow.isPlanner, Bool.and_eq_true, beq_iff_eq] at status
  obtain ⟨declaration, among, sameKey, sameAuthor⟩ := pending row held status.1
  obtain ⟨judged, slot⟩ := mem_scheduled among
  -- Were the key fixed by a started row, that row and this one would share it.
  have free : table.frozen? declaration.key = none := by
    rw [TaskTable.frozen?, find?_eq_none]
    intro other there fixed
    simp only [Bool.and_eq_true, beq_iff_eq, bne_iff_ne, ne_eq] at fixed
    have stays := (started other fixed.2).mpr there
    have same := inj_on_of_nodup_map
      (projectTasks plannerTaskCeiling term declarations table).distinct stays held
      (fixed.1.trans sameKey.symm)
    exact fixed.2 (same ▸ status.1)
  have candidate : isCandidate term table declaration := by
    simp [isCandidate, judged, ← sameAuthor, status.2, free]
  obtain ⟨entry, chosen, rfl⟩ := mem_map.mp (slot candidate)
  exact mem_map.mpr ⟨entry, chosen, sameKey.symm⟩

theorem waiting_le : (projectTasks plannerTaskCeiling term declarations table).waiting.length ≤
      capacity plannerTaskCeiling term table := by
  have distinct : ((projectTasks plannerTaskCeiling term declarations table).waiting.map
      TaskRow.key).Nodup :=
    (projectTasks plannerTaskCeiling term declarations table).distinct.sublist
      (filter_sublist.map _)
  have slots : (projectTasks plannerTaskCeiling term declarations table).waiting.map
      TaskRow.key ⊆ (admitted plannerTaskCeiling term table declarations).map
        fun entry => entry.1.key := by
    intro key among
    obtain ⟨_, waits, rfl⟩ := mem_map.mp among
    exact waiting_admitted plannerTaskCeiling term declarations table waits
  calc (projectTasks plannerTaskCeiling term declarations table).waiting.length
      ≤ (admitted plannerTaskCeiling term table declarations).length := by
        simpa using (subperm_of_subset distinct slots).length_le
    _ ≤ capacity plannerTaskCeiling term table := by
        rw [admitted]
        exact length_take_le _ _

theorem occupied_projectTasks :
    (projectTasks plannerTaskCeiling term declarations table).occupied = table.occupied :=
  (projectTasks_spec plannerTaskCeiling term declarations table).1.occupied

/-- **A projection stays within the share.**  What is unfinished afterwards was in flight
before or fits the share. -/
theorem unfinished_projectTasks_le {term : TrackTreeTerm} {bound : Int}
    (inFlight : table.occupied ≤ bound)
    (share : ∀ share, term = .share share → share.share ≤ bound) :
    (projectTasks plannerTaskCeiling term declarations table).unfinished ≤ bound := by
  have slots := waiting_le plannerTaskCeiling term declarations table
  rw [TaskTable.unfinished_eq, occupied_projectTasks]
  cases term with
  | rootUnresolved =>
    simp only [capacity] at slots
    omega
  | share given =>
    have fits := share given rfl
    simp only [capacity] at slots
    split at slots <;> omega

end NeigeCalm.Tree
