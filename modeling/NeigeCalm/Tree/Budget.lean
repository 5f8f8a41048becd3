import NeigeCalm.Error
import NeigeCalm.Library.Fallible
import NeigeCalm.Tree.Projection
import Mathlib.Algebra.Order.BigOperators.Group.List
import Mathlib.Data.List.NodupEquivFin

/-!
# The task budget of a tree

A tree is its members in the order of their creation, each with its task rows.  Reports are
projected one member at a time; an edit of the budget, a new member and a removed member
change many shares at once and reproject the whole tree in their transaction.  No commit
leaves a member with more unfinished planner tasks than its share.
-/

namespace NeigeCalm.Tree

open Library List TaskTable

structure Member where
  id : Text
  depth : Int
  plannerTaskCeiling : Option Int
  table : TaskTable
deriving DecidableEq

/-- The members in `(created_at, id)` order. -/
structure TrackTree where
  rootId : Text
  treeTaskBudget : Option Int
  members : List Member
  distinct : (members.map Member.id).Nodup
deriving DecidableEq

namespace TrackTree

def budget (tree : TrackTree) : Int := effectiveLimit tree.treeTaskBudget defaultTreeTaskBudget

/-- The share of the member at `index`. -/
def share (tree : TrackTree) (index : Nat) : Int :=
  deterministicShare tree.budget tree.members.length index

def inventory (tree : TrackTree) : List MemberInventory :=
  tree.members.map fun member =>
    { id := member.id, depth := member.depth, fixedLive := member.table.occupied }

/-- The tree with new rows for its members. -/
def withTables (tree : TrackTree) (table : Member → Nat → TaskTable) : TrackTree where
  rootId := tree.rootId
  treeTaskBudget := tree.treeTaskBudget
  members := tree.members.mapIdx fun index member => { member with table := table member index }
  distinct := by
    have same : (tree.members.mapIdx fun index member =>
        { member with table := table member index }).map Member.id =
        tree.members.map Member.id := by
      apply ext_getElem <;> simp
    exact same ▸ tree.distinct

/-! ## Single members -/

def editMember (tree : TrackTree) (id : Text) (edit : Member → TaskTable) : TrackTree :=
  tree.withTables fun member _ => if member.id = id then edit member else member.table

/-- The projection of one report, with the share the tree gives its track now. -/
def projectMember (tree : TrackTree) (id : Text) (declarations : List TaskDeclaration) :
    TrackTree :=
  tree.editMember id fun member =>
    projectTasks member.plannerTaskCeiling
      (treeShareFromMemberInventory tree.rootId id tree.budget tree.inventory)
      declarations member.table

/-! ## The whole tree -/

inductive RebuildPolicy where
  | strict
  | preserveExistingFreeze
deriving DecidableEq

/-- The share each member is projected with.  Strict rebuilds never freeze admission; the
check afterwards refuses the change instead. -/
def rebuildTerm (tree : TrackTree) (policy : RebuildPolicy) (member : Member) (index : Nat) :
    TrackTreeTerm :=
  match policy with
  | .strict => .share
      { rootId := tree.rootId
        budget := tree.budget
        members := tree.members.length
        memberIndex := index
        share := tree.share index
        admissionFrozen := false
        minimumBudgetToUnfreeze := none }
  | .preserveExistingFreeze =>
    treeShareFromMemberInventory tree.rootId member.id tree.budget tree.inventory

/-- Every member reprojected; one without a report keeps its rows. -/
def reproject (tree : TrackTree) (policy : RebuildPolicy)
    (source : Text → Option (List TaskDeclaration)) : TrackTree :=
  tree.withTables fun member index =>
    match source member.id with
    | none => member.table
    | some declarations =>
      projectTasks member.plannerTaskCeiling (tree.rebuildTerm policy member index)
        declarations member.table

def number (value : Int) : Text := (toString value).toList

/-- The unfinished planner tasks of each member, in order of id. -/
def inventories (tree : TrackTree) : List (Text × Int) :=
  (tree.members.map fun member => (member.id, (member.table.unfinished : Int))).insertionSort
    fun first second => first.1 ≤ second.1

def shares (tree : TrackTree) : List (Text × Int) :=
  tree.members.mapIdx fun index member => (member.id, tree.share index)

def requireTreeBudgetPostcondition (rootId : Text) (budget : Int) (shares : List (Text × Int))
    (inventories : List (Text × Int)) : Except CalmError Unit :=
  let total := (inventories.map Prod.snd).sum
  match inventories.find? fun entry =>
      match shares.lookup entry.1 with
      | none => true
      | some share => share < entry.2 with
  | some (memberId, live) =>
    .error (.conflict ("track tree change would leave member ".toList ++ memberId ++
      " with ".toList ++ number live ++
      " unfinished planner task(s), above its new share of ".toList ++
      number ((shares.lookup memberId).getD 0) ++
      "; wait for in-flight work to finish".toList))
  | none =>
    if budget < total then
      .error (.conflict ("track tree rooted at ".toList ++ rootId ++ " would hold ".toList ++
        number total ++ " unfinished planner task(s), above its tree_task_budget of ".toList ++
        number budget))
    else .ok ()

/-- While admission is frozen nothing but the fixed tasks may be left. -/
def requireFrozenInventory (fixed inventories : List (Text × Int)) : Except CalmError Unit :=
  match inventories.find? fun entry => fixed.lookup entry.1 != some entry.2 with
  | some (memberId, live) =>
    .error (.internal ("member-removal reprojection left ".toList ++ number live ++
      " unfinished planner task(s) on ".toList ++ memberId ++ ", but only ".toList ++
      number ((fixed.lookup memberId).getD 0) ++
      " fixed task(s) may survive admission freeze".toList))
  | none => .ok ()

/-- `tasks_rebuild_tree_with_policy_tx`. -/
def rebuild (tree : TrackTree) (policy : RebuildPolicy)
    (source : Text → Option (List TaskDeclaration)) : Except CalmError TrackTree := do
  if tree.members.isEmpty || maxTreeTaskBudget < tree.members.length ||
      tree.members.any (fun member => maxTrackTreeDepth < member.depth) then
    .error (.conflict ("track tree rooted at ".toList ++ tree.rootId ++
      " is unresolved or exceeds the 64-member reprojection bound".toList))
  else
    let projected := tree.reproject policy source
    let admissionFrozen := tree.members.zipIdx.any fun entry =>
      (tree.rebuildTerm policy entry.1 entry.2).isFrozen
    if policy = .preserveExistingFreeze ∧ admissionFrozen then
      requireFrozenInventory
        (tree.inventory.map fun member => (member.id, member.fixedLive)) projected.inventories
    else
      requireTreeBudgetPostcondition tree.rootId tree.budget tree.shares projected.inventories
    pure projected

/-- The tree with one more member, at any place of the order: the clock need not be monotone. -/
def insert (tree : TrackTree) (position : Nat) (member : Member)
    (fresh : member.id ∉ tree.members.map Member.id) : TrackTree where
  rootId := tree.rootId
  treeTaskBudget := tree.treeTaskBudget
  members := tree.members.take position ++ member :: tree.members.drop position
  distinct := by
    have order : (tree.members.take position ++ member :: tree.members.drop position).Perm
        (member :: tree.members) := by
      refine perm_middle.trans ?_
      rw [take_append_drop]
    rw [(order.map Member.id).nodup_iff]
    exact nodup_cons.mpr ⟨fresh, tree.distinct⟩

def remove (tree : TrackTree) (id : Text) : TrackTree where
  rootId := tree.rootId
  treeTaskBudget := tree.treeTaskBudget
  members := tree.members.filter fun member => member.id != id
  distinct := tree.distinct.sublist (filter_sublist.map _)

/-- The removal of a track.  The last member leaves no tree to rebuild. -/
def removeMember (tree : TrackTree) (id : Text) (source : Text → Option (List TaskDeclaration)) :
    Except CalmError TrackTree :=
  if (tree.remove id).members.isEmpty then .ok (tree.remove id)
  else (tree.remove id).rebuild .preserveExistingFreeze source

end TrackTree

/-! ## Runs -/

/-- Dispatch, progress of a started task, and ending. -/
def TaskStatus.leadsTo : TaskStatus → TaskStatus → Bool
  | .pending, .dispatched => true
  | before, after =>
    before.isInFlight && after.isInFlight || !before.isTerminal && after.isTerminal

def TaskTable.advance (table : TaskTable) (key : Text) (status : TaskStatus) : TaskTable :=
  table.map
    (fun row => if row.key = key ∧ TaskStatus.leadsTo row.status status then
      { row with status } else row)
    (by intro row; split <;> rfl)

/-- A failed execution leaves its key to the next one. -/
def TaskTable.retire (table : TaskTable) (key : Text) : TaskTable :=
  table.filter fun row => !(row.key == key && row.status == .failed)

/-- One committed transaction.  `source` is what the reports declare at that moment. -/
inductive Step : TrackTree → TrackTree → Prop
  | project (tree : TrackTree) (id : Text) (declarations : List TaskDeclaration) :
      Step tree (tree.projectMember id declarations)
  | advance (tree : TrackTree) (id key : Text) (status : TaskStatus) :
      Step tree (tree.editMember id fun member => member.table.advance key status)
  | retire (tree : TrackTree) (id key : Text) :
      Step tree (tree.editMember id fun member => member.table.retire key)
  | editBudget {tree after : TrackTree} (value : Option Int)
      (source : Text → Option (List TaskDeclaration)) :
      TrackTree.rebuild { tree with treeTaskBudget := value } .strict source = .ok after →
      Step tree after
  | add {tree after : TrackTree} (position : Nat) (member : Member)
      (fresh : member.id ∉ tree.members.map Member.id)
      (source : Text → Option (List TaskDeclaration)) :
      canAddTreeMember tree.budget tree.members.length →
      (tree.insert position member fresh).rebuild .strict source = .ok after →
      Step tree after
  | remove {tree after : TrackTree} (id : Text) (source : Text → Option (List TaskDeclaration)) :
      tree.removeMember id source = .ok after →
      Step tree after

abbrev Reaches : TrackTree → TrackTree → Prop := Relation.ReflTransGen Step

/-- Every member's unfinished planner tasks fit its share. -/
def TrackTree.Within (tree : TrackTree) : Prop :=
  ∀ (index : Nat) (member : Member), tree.members[index]? = some member →
    (member.table.unfinished : Int) ≤ tree.share index

/-! ## Steps keep the bound -/

namespace TrackTree

theorem withTables_getElem? {tree : TrackTree} {table : Member → Nat → TaskTable} {index : Nat}
    (there : (tree.withTables table).members[index]? = some member) :
    ∃ earlier, tree.members[index]? = some earlier ∧
      member = { earlier with table := table earlier index } := by
  rw [withTables, getElem?_mapIdx, Option.map_eq_some_iff] at there
  obtain ⟨earlier, found, same⟩ := there
  exact ⟨earlier, found, same.symm⟩

theorem withTables_share (tree : TrackTree) (table : Member → Nat → TaskTable) :
    (tree.withTables table).share = tree.share := by
  funext index
  simp [share, budget, withTables]

/-- New rows for the members keep the bound when each table does. -/
theorem Within.withTables {tree : TrackTree} {table : Member → Nat → TaskTable}
    (bound : ∀ index member, tree.members[index]? = some member →
      ((table member index).unfinished : Int) ≤ tree.share index) :
    (tree.withTables table).Within := by
  intro index member there
  obtain ⟨earlier, found, rfl⟩ := withTables_getElem? there
  rw [withTables_share]
  exact bound index earlier found

theorem Within.editMember {tree : TrackTree} {id : Text} {edit : Member → TaskTable}
    (within : tree.Within)
    (bound : ∀ index member, tree.members[index]? = some member → member.id = id →
      ((edit member).unfinished : Int) ≤ tree.share index) : (tree.editMember id edit).Within := by
  apply Within.withTables
  intro index member there
  split
  next same => exact bound index member there same
  next => exact within index member there

end TrackTree

theorem TaskTable.occupied_le_unfinished (table : TaskTable) :
    table.occupied ≤ table.unfinished := by
  rw [table.unfinished_eq]
  exact Nat.le_add_right _ _

theorem TaskStatus.leadsTo_unfinished {before after : TaskStatus}
    (leads : TaskStatus.leadsTo before after) (open_ : after.isTerminal = false) :
    before.isTerminal = false := by
  cases before <;> cases after <;> revert leads open_ <;> decide

theorem TaskTable.unfinished_advance_le (table : TaskTable) (key : Text) (status : TaskStatus) :
    (table.advance key status).unfinished ≤ table.unfinished := by
  rw [unfinished, advance, map, countP_map]
  apply countP_mono_left
  intro row _
  simp only [Function.comp_apply, Bool.and_eq_true, Bool.not_eq_true', and_imp]
  split
  next both =>
    intro unfinished planner
    exact ⟨TaskStatus.leadsTo_unfinished both.2 unfinished, planner⟩
  next => exact And.intro

theorem TaskTable.unfinished_retire_le (table : TaskTable) (key : Text) :
    (table.retire key).unfinished ≤ table.unfinished := by
  rw [unfinished, retire, filter]
  exact filter_sublist.countP_le

namespace TrackTree

/-- An id names one place among the members. -/
theorem index_unique (tree : TrackTree) {place index : Nat}
    (one : tree.members[place]? = some first) (two : tree.members[index]? = some second)
    (same : first.id = second.id) : place = index := by
  obtain ⟨inside, rfl⟩ := List.getElem?_eq_some_iff.mp one
  obtain ⟨bound, rfl⟩ := List.getElem?_eq_some_iff.mp two
  have equal : tree.members[place] = tree.members[index] :=
    inj_on_of_nodup_map tree.distinct (getElem_mem inside) (getElem_mem bound) same
  exact (List.Nodup.getElem_inj_iff tree.distinct.of_map).mp equal

/-- The share in the term of a member is the share of its place. -/
theorem share_of_term {tree : TrackTree} (there : tree.members[index]? = some member)
    (term : treeShareFromMemberInventory tree.rootId member.id tree.budget tree.inventory =
      .share given) :
    given.share = tree.share index ∧ given.admissionFrozen = !fits tree.budget tree.inventory := by
  obtain ⟨_, _⟩ := List.getElem?_eq_some_iff.mp there
  rw [treeShareFromMemberInventory] at term
  split at term
  next => cases term
  next place found =>
    split at term
    next => cases term
    next =>
      cases term
      refine ⟨?_, rfl⟩
      rw [inventory, findIdx?_map, findIdx?_eq_some_iff_getElem] at found
      obtain ⟨inside, named, -⟩ := found
      simp only [Function.comp_apply, beq_iff_eq] at named
      have same : place = index := tree.index_unique (getElem?_eq_getElem inside) there named
      simp [share, inventory, same]

theorem Within.projectMember {tree : TrackTree} (within : tree.Within) (id : Text)
    (declarations : List TaskDeclaration) : (tree.projectMember id declarations).Within := by
  apply within.editMember
  intro index member there isId
  apply unfinished_projectTasks_le
  · have fixed := member.table.occupied_le_unfinished
    have bound := within index member there
    omega
  · intro given term
    rw [← isId] at term
    exact (share_of_term there term).1.le

/-! ## Rebuilds -/

theorem lookup_shares {tree : TrackTree} (there : tree.members[index]? = some member)
    (found : tree.shares.lookup member.id = some given) : given = tree.share index := by
  obtain ⟨_, _, split, -⟩ := lookup_eq_some_iff.mp found
  have among : (member.id, given) ∈ tree.shares := by
    rw [split]
    exact mem_append_right _ mem_cons_self
  obtain ⟨place, inside, same⟩ := mem_mapIdx.mp among
  obtain ⟨_, _⟩ := List.getElem?_eq_some_iff.mp there
  obtain ⟨named, rfl⟩ := Prod.mk.inj same
  have here : place = index := tree.index_unique (getElem?_eq_getElem inside) there named
  rw [here]

/-- **The check after a rebuild.**  When it passes, every member is within its share. -/
theorem within_of_postcondition {tree : TrackTree} {table : Member → Nat → TaskTable}
    {rootId : Text} (passed : requireTreeBudgetPostcondition rootId total tree.shares
      (tree.withTables table).inventories = .ok ()) : (tree.withTables table).Within := by
  rw [requireTreeBudgetPostcondition] at passed
  split at passed
  next => cases passed
  next none =>
    apply Within.withTables
    intro index member there
    have fitting := find?_eq_none.mp none (member.id, ((table member index).unfinished : Int))
      (by
        rw [inventories, mem_insertionSort, mem_map]
        refine ⟨{ member with table := table member index }, ?_, rfl⟩
        apply mem_of_getElem?
        rw [withTables, getElem?_mapIdx, there, Option.map_some])
    dsimp only at fitting
    split at fitting
    next => exact absurd rfl fitting
    next found =>
      rw [lookup_shares there found] at fitting
      simpa using fitting

theorem fits_of_within {tree : TrackTree} (within : tree.Within) :
    fits tree.budget tree.inventory = true := by
  rw [fits, all_eq_true]
  rintro ⟨_, index⟩ among
  rw [mem_zipIdx_iff_getElem?, inventory, getElem?_map, Option.map_eq_some_iff] at among
  obtain ⟨member, there, rfl⟩ := among
  have bound := within index member there
  have fixed := member.table.occupied_le_unfinished
  simp only [inventory, length_map, decide_eq_true_eq]
  rw [share] at bound
  omega

/-- A rebuild freezes admission only in a tree that is not within its shares. -/
theorem not_frozen {tree : TrackTree} (within : tree.Within) (policy : RebuildPolicy) :
    (tree.members.zipIdx.any fun entry =>
      TrackTreeTerm.isFrozen (tree.rebuildTerm policy entry.1 entry.2)) = false := by
  rw [any_eq_false]
  rintro ⟨member, _⟩ among
  rw [mem_zipIdx_iff_getElem?] at among
  cases policy with
  | strict => simp [rebuildTerm, TrackTreeTerm.isFrozen]
  | preserveExistingFreeze =>
    simp only [rebuildTerm]
    cases term : treeShareFromMemberInventory tree.rootId member.id tree.budget tree.inventory with
    | rootUnresolved => simp [TrackTreeTerm.isFrozen]
    | share =>
      rw [TrackTreeTerm.isFrozen, (share_of_term among term).2, fits_of_within within]
      decide

/-- What a rebuild that commits has done. -/
theorem rebuild_ok {tree after : TrackTree} {policy : RebuildPolicy}
    {source : Text → Option (List TaskDeclaration)} (done : tree.rebuild policy source = .ok after)
    (calm : policy = .strict ∨ tree.Within) : after.Within := by
  rw [rebuild] at done
  split at done
  next => cases done
  next =>
    dsimp only at done
    split at done
    next both =>
      rcases calm with strict | within
      · rw [strict] at both
        cases both.1
      · rw [not_frozen within policy] at both
        cases both.2
    next =>
      obtain ⟨⟨⟩, checked, same⟩ := Fallible.bind_eq_ok.mp done
      rw [← Except.ok.inj same]
      exact within_of_postcondition checked

/-! ## Fewer members -/

theorem le_of_strictMono_getElem? {α : Type*} {short long : List α} (sub : short.Sublist long)
    (index : Nat) : ∃ place, index ≤ place ∧ short[index]? = long[place]? := by
  obtain ⟨place, same⟩ := sublist_iff_exists_orderEmbedding_getElem?_eq.mp sub
  exact ⟨place index, place.strictMono.le_apply, same index⟩

/-- **Removing a member lowers no survivor's share.** -/
theorem share_remove_le {tree : TrackTree} {id : Text} (before : tree.members[index]? = some member)
    (after : (tree.remove id).members[place]? = some member) :
    tree.share index ≤ (tree.remove id).share place := by
  have sub : (tree.remove id).members.Sublist tree.members := filter_sublist
  obtain ⟨earlier, later, same⟩ := le_of_strictMono_getElem? sub place
  obtain ⟨_, isMember⟩ := List.getElem?_eq_some_iff.mp before
  obtain ⟨_, isMember'⟩ := List.getElem?_eq_some_iff.mp (same.symm.trans after)
  have here : earlier = index :=
    (List.Nodup.getElem_inj_iff tree.distinct.of_map).mp (isMember'.trans isMember.symm)
  obtain ⟨inside, -⟩ := List.getElem?_eq_some_iff.mp after
  rw [share, share]
  apply deterministicShare_mono
  · exact_mod_cast Nat.zero_lt_of_lt inside
  · exact_mod_cast sub.length_le
  · exact_mod_cast here ▸ later

theorem Within.remove {tree : TrackTree} (within : tree.Within) (id : Text) :
    (tree.remove id).Within := by
  intro place member after
  have sub : (tree.remove id).members.Sublist tree.members := filter_sublist
  obtain ⟨index, -, same⟩ := le_of_strictMono_getElem? sub place
  have before : tree.members[index]? = some member := same.symm.trans after
  exact (within index member before).trans (share_remove_le before after)

theorem Within.removeMember {tree after : TrackTree} (within : tree.Within) {id : Text}
    {source : Text → Option (List TaskDeclaration)}
    (done : tree.removeMember id source = .ok after) : after.Within := by
  rw [TrackTree.removeMember] at done
  split at done
  next => exact Except.ok.inj done ▸ within.remove id
  next => exact rebuild_ok done (.inr (within.remove id))

end TrackTree

/-! ## Runs keep the bound -/

theorem Step.within {before after : TrackTree} (step : Step before after) (within : before.Within) :
    after.Within := by
  cases step with
  | project id declarations => exact within.projectMember id declarations
  | advance _ key status =>
    apply within.editMember
    intro index member there _
    have fewer := member.table.unfinished_advance_le key status
    have bound := within index member there
    omega
  | retire _ key =>
    apply within.editMember
    intro index member there _
    have fewer := member.table.unfinished_retire_le key
    have bound := within index member there
    omega
  | editBudget _ _ done | add _ _ _ _ _ done => exact TrackTree.rebuild_ok done (.inl rfl)
  | remove _ _ done => exact within.removeMember done

theorem Reaches.within {before after : TrackTree} (run : Reaches before after)
    (within : before.Within) : after.Within := by
  induction run with
  | refl => exact within
  | tail _ step ih => exact step.within ih

namespace TrackTree

/-- All unfinished planner tasks of the tree. -/
def unfinished (tree : TrackTree) : Int :=
  (tree.members.map fun member => (member.table.unfinished : Int)).sum

/-- The shares of all members. -/
def allShares (tree : TrackTree) : List Int := (range tree.members.length).map fun index =>
  tree.share index

theorem sum_allShares {tree : TrackTree} (some : tree.members ≠ []) :
    tree.allShares.sum = max tree.budget 0 :=
  sum_shares tree.budget (length_pos_iff.mpr some)

theorem Within.unfinished_le {tree : TrackTree} (within : tree.Within) :
    tree.unfinished ≤ tree.allShares.sum := by
  have members : tree.members.zipIdx.map (fun entry => (entry.1.table.unfinished : Int)) =
      tree.members.map fun member => (member.table.unfinished : Int) := by
    simp [← Function.comp_def, ← map_map]
  have places : tree.members.zipIdx.map (fun entry => tree.share entry.2) = tree.allShares := by
    rw [allShares, ← Function.comp_def (f := tree.share), ← map_map, zipIdx_map_snd,
      range_eq_range']
  rw [unfinished, ← members, ← places]
  apply sum_le_sum
  rintro ⟨member, index⟩ among
  exact within index member (mem_zipIdx_iff_getElem?.mp among)

end TrackTree

/-- **The tree's task budget is never exceeded.**  In every run from a tree whose members are
within their shares, at every commit every member is within its current share, the whole tree
within the budget, the shares add up to the budget, and removing any member leaves no survivor
a smaller share. -/
theorem tree_budget_kept {start tree : TrackTree} (within : start.Within)
    (run : Reaches start tree) :
    (∀ (index : Nat) (member : Member), tree.members[index]? = some member →
      (member.table.unfinished : Int) ≤ deterministicShare tree.budget tree.members.length index) ∧
    tree.unfinished ≤ max (tree.treeTaskBudget.getD defaultTreeTaskBudget) 0 ∧
    (tree.members ≠ [] →
      tree.allShares.sum = max (tree.treeTaskBudget.getD defaultTreeTaskBudget) 0) ∧
    ∀ (id : Text) (index place : Nat) (member : Member),
      tree.members[index]? = some member → (tree.remove id).members[place]? = some member →
      tree.share index ≤ (tree.remove id).share place := by
  have bound := run.within within
  have budget : max tree.budget 0 = max (tree.treeTaskBudget.getD defaultTreeTaskBudget) 0 := by
    simp [TrackTree.budget, effectiveLimit]
  refine ⟨bound, ?_, fun some => (TrackTree.sum_allShares some).trans budget,
    fun id index place member before after => TrackTree.share_remove_le before after⟩
  by_cases none : tree.members = []
  · simp [TrackTree.unfinished, none]
  · calc tree.unfinished ≤ tree.allShares.sum := bound.unfinished_le
      _ = max tree.budget 0 := TrackTree.sum_allShares none
      _ = _ := budget

/-! A tree of one track with a task in flight and a budget of three takes a second track, and
then projects one declaration of it. -/

def trialRow : TaskRow :=
  { key := "a".toList, status := .running, declaredBy := plannerDeclarationAuthor }

def trialRoot : Member :=
  { id := "r".toList
    depth := 0
    plannerTaskCeiling := none
    table := ⟨[trialRow], by decide⟩ }

def trialChild : Member :=
  { id := "s".toList
    depth := 1
    plannerTaskCeiling := none
    table := ⟨[], by decide⟩ }

def trialStart : TrackTree :=
  { rootId := "r".toList
    treeTaskBudget := some 3
    members := [trialRoot]
    distinct := by decide }

def trialGrown : TrackTree :=
  { rootId := "r".toList
    treeTaskBudget := some 3
    members := [trialRoot, trialChild]
    distinct := by decide }

def trialDeclaration (key : Text) : TaskDeclaration :=
  { blockIndex := some 0
    key
    declaredBy := plannerDeclarationAuthor
    ready := true
    tombstone := false
    diagnosed := false
    drifted := false }

def trialProjected : TrackTree :=
  trialGrown.projectMember "s".toList [trialDeclaration "b".toList, trialDeclaration "c".toList]

theorem trialStart_within : trialStart.Within := by
  intro index member there
  cases index with
  | zero =>
    cases there
    decide +kernel
  | succ => simp [trialStart] at there

theorem trial_adds : Step trialStart trialGrown :=
  .add 1 trialChild (by decide +kernel) (fun _ => none) (by decide +kernel) (by decide +kernel)

/-- The second track's share is one: of its two declarations one gets a row. -/
theorem tree_budget_kept_trial :
    (∃ member, trialProjected.members[1]? = some member ∧ (member.table.unfinished : Int) = 1 ∧
      (member.table.unfinished : Int) ≤
        deterministicShare trialProjected.budget trialProjected.members.length 1) ∧
    trialProjected.unfinished ≤
      max (trialProjected.treeTaskBudget.getD defaultTreeTaskBudget) 0 := by
  have run : Reaches trialStart trialProjected :=
    .tail (.tail .refl trial_adds) (.project trialGrown _ _)
  obtain ⟨each, all, -⟩ := tree_budget_kept trialStart_within run
  refine ⟨⟨_, rfl, ?_, each 1 _ rfl⟩, all⟩
  decide +kernel

end NeigeCalm.Tree
