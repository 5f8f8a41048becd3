import NeigeCalm.Tree.Share

/-!
# The budget a refusal suggests

A planner task that finds no room in its tree is answered with a diagnostic, and the diagnostic
suggests the budget to raise to.  Two searches give it: the least budget at which the target's
share grows, and, when the tree is frozen, the least one at which every member fits.  Shares
grow with the budget, so each search finds the start of an upper part of the range and the
greater of the two starts is where both hold.

The first search asks for more than the target needs when the tree is frozen while the target
is under its share: then room for one more task is there as soon as the tree unfreezes, but the
search asks for a greater share.  `suggestion_least_iff` says that this is the only case in which
the suggestion is not the least budget that helps.
-/

namespace NeigeCalm.Tree

open Library List

/-! ## The diagnostic -/

/-- `tree_capacity`: the slots of a share that are not taken. -/
def treeCapacity (share occupied : Int) : Int := max (share - occupied) 0

/-- The slots that the tree leaves to a member now. -/
def TreeShare.capacityNow (given : TreeShare) (occupied : Int) : Int :=
  if given.admissionFrozen then 0 else treeCapacity given.share occupied

/-- The least raised budget at which the target's share exceeds both its share and its tasks. -/
def TreeShare.minimumForTarget (given : TreeShare) (occupied : Int) : Option Int :=
  (raisedBudgets given.budget).find? fun raised =>
    max given.share occupied < deterministicShare raised given.members given.memberIndex

/-- The greater of two minima, if both are there. -/
def greaterOf : Option Int → Option Int → Option Int
  | some target, some unfreeze => some (max target unfreeze)
  | _, _ => none

def TreeShare.minimumTreeTaskBudget (given : TreeShare) (occupied : Int) : Option Int :=
  if given.admissionFrozen then
    greaterOf (given.minimumForTarget occupied) given.minimumBudgetToUnfreeze
  else given.minimumForTarget occupied

/-! ## Shares grow with the budget -/

theorem deterministicShare_mono_budget (more : budget ≤ raised) (members index : Int) :
    deterministicShare budget members index ≤ deterministicShare raised members index := by
  rw [deterministicShare, deterministicShare]
  split
  · exact le_rfl
  next some =>
    have positive : 0 < members := by omega
    have grown : max budget 0 ≤ max raised 0 := max_le_max_right 0 more
    generalize max budget 0 = less at *
    generalize max raised 0 = greater at *
    have division := Int.mul_ediv_add_emod less members
    have division' := Int.mul_ediv_add_emod greater members
    have remainder' := Int.emod_nonneg greater positive.ne'
    have quotient : less / members ≤ greater / members := Int.ediv_le_ediv positive grown
    rcases lt_or_eq_of_le quotient with _ | same
    · split <;> split <;> omega
    · rw [same] at division
      split <;> split <;> omega

theorem fits_iff :
    fits budget members = true ↔ ∀ (index : Nat) (member : MemberInventory),
      members[index]? = some member →
        member.fixedLive ≤ deterministicShare budget members.length index := by
  rw [fits, all_eq_true]
  constructor
  · intro each index member here
    exact of_decide_eq_true (each (member, index) (mem_zipIdx_iff_getElem?.mpr here))
  · rintro each ⟨member, index⟩ inside
    exact decide_eq_true (each index member (mem_zipIdx_iff_getElem?.mp inside))

/-- Members that fit a budget fit every greater one. -/
theorem fits_mono (more : budget ≤ raised) (fit : fits budget members = true) :
    fits raised members = true :=
  fits_iff.mpr fun index member here =>
    (fits_iff.mp fit index member here).trans (deterministicShare_mono_budget more _ _)

/-! ## Searches -/

section Search

/-- A budget that a raise may go to. -/
def Legal (budget raised : Int) : Prop := budget < raised ∧ raised ≤ maxTreeTaskBudget

theorem raisedBudgets_eq :
    raisedBudgets budget = (range (maxTreeTaskBudget - budget).toNat).map fun step : Nat =>
      budget + 1 + (step : Int) := by
  simp only [raisedBudgets, bind_eq_flatMap, pure_def]
  rw [map_flatMap, map_eq_flatMap]
  rfl

theorem mem_raisedBudgets : raised ∈ raisedBudgets budget ↔ Legal budget raised := by
  rw [raisedBudgets_eq]
  simp only [mem_map, mem_range, Legal]
  constructor
  · rintro ⟨_, _, rfl⟩
    omega
  · rintro ⟨_, _⟩
    exact ⟨(raised - budget - 1).toNat, by omega, by omega⟩

theorem sorted_raisedBudgets (budget : Int) : (raisedBudgets budget).Pairwise (· < ·) := by
  rw [raisedBudgets_eq]
  refine pairwise_map.mpr (pairwise_lt_range.imp fun less => ?_)
  omega

/-- The suggestion is the least budget that helps, and is there if one helps at all. -/
structure LeastBudget (Helps : Int → Prop) (suggested : Option Int) : Prop where
  present : suggested.isSome = true ↔ ∃ raised, Helps raised
  least : ∀ raised, suggested = some raised → IsLeast {other | Helps other} raised

theorem LeastBudget.congr {Helps Helps' : Int → Prop}
    (same : ∀ raised, Helps raised ↔ Helps' raised) (least : LeastBudget Helps suggested) :
    LeastBudget Helps' suggested := by
  have equal : Helps = Helps' := funext fun raised => propext (same raised)
  rwa [← equal]

/-- A search finds the least raised budget with the property. -/
theorem leastBudget_find? (budget : Int) (property : Int → Bool) :
    LeastBudget (fun raised => Legal budget raised ∧ property raised = true)
      ((raisedBudgets budget).find? property) := by
  have sorted := sorted_raisedBudgets budget
  constructor
  · rw [find?_isSome]
    exact exists_congr fun raised => and_congr_left fun _ => mem_raisedBudgets
  · intro raised found
    obtain ⟨holds, _, _, whole, none⟩ := find?_eq_some_iff_append.mp found
    have inside : raised ∈ raisedBudgets budget := mem_of_find?_eq_some found
    refine ⟨⟨mem_raisedBudgets.mp inside, holds⟩, fun other ⟨legal, also⟩ => ?_⟩
    have known := mem_raisedBudgets.mpr legal
    rw [whole] at known sorted
    rcases mem_append.mp known with early | late
    · have not := none other early
      simp [also] at not
    · rcases mem_cons.mp late with rfl | later
      · exact le_rfl
      · exact (rel_of_pairwise_cons (pairwise_append.mp sorted).2.1 later).le

/-- Two properties that stay true as the budget grows hold together from the greater start on. -/
theorem LeastBudget.both {first second : Int → Prop}
    (firstUp : ∀ raised higher, raised ≤ higher → higher ≤ maxTreeTaskBudget → first raised →
      first higher)
    (secondUp : ∀ raised higher, raised ≤ higher → higher ≤ maxTreeTaskBudget → second raised →
      second higher) (bounded : ∀ raised, first raised ∨ second raised → raised ≤ maxTreeTaskBudget)
    (leastFirst : LeastBudget first one) (leastSecond : LeastBudget second other) :
    LeastBudget (fun raised => first raised ∧ second raised) (greaterOf one other) := by
  cases one with
  | none =>
    refine ⟨⟨nofun, fun ⟨raised, holds, _⟩ => ?_⟩, nofun⟩
    exact leastFirst.present.mpr ⟨raised, holds⟩
  | some a =>
    cases other with
    | none =>
      refine ⟨⟨nofun, fun ⟨raised, _, holds⟩ => ?_⟩, nofun⟩
      exact leastSecond.present.mpr ⟨raised, holds⟩
    | some b =>
      have isA := leastFirst.least a rfl
      have isB := leastSecond.least b rfl
      have inRange : max a b ≤ maxTreeTaskBudget :=
        max_le (bounded a (.inl isA.1)) (bounded b (.inr isB.1))
      have together : first (max a b) ∧ second (max a b) :=
        ⟨firstUp a _ (le_max_left a b) inRange isA.1, secondUp b _ (le_max_right a b) inRange isB.1⟩
      refine ⟨⟨fun _ => ⟨_, together⟩, fun _ => rfl⟩, fun raised same => ?_⟩
      cases same
      exact ⟨together, fun other ⟨holds, also⟩ => max_le (isA.2 holds) (isB.2 also)⟩

end Search

/-! ## When the suggestion is least -/

section Suggestion

variable {trackId : Text} {given : TreeShare} {index : Nat} {target : MemberInventory}

/-- Raising to this budget leaves no member over its share and gives the target more room than
`room`. -/
def Helps (members : List MemberInventory) (index : Nat) (budget occupied room raised : Int) :
    Prop :=
  Legal budget raised ∧ fits raised members = true ∧
    room < treeCapacity (deterministicShare raised members.length index) occupied

theorem share_of_inventory
    (found : treeShareFromMemberInventory rootId trackId budget members = .share given)
    (place : given.memberIndex = index) :
    given.budget = budget ∧ given.members = members.length ∧
      given.share = deterministicShare budget members.length index ∧
      given.admissionFrozen = !fits budget members ∧
      given.minimumBudgetToUnfreeze =
        if (!fits budget members) = true then
          (raisedBudgets budget).find? fun raised => fits raised members
        else none := by
  rw [treeShareFromMemberInventory] at found
  split at found
  · cases found
  · split at found
    · cases found
    · cases found
      dsimp only at place ⊢
      rw [place]
      exact ⟨rfl, rfl, rfl, rfl, rfl⟩

section Cases

variable (found : treeShareFromMemberInventory rootId trackId budget members = .share given)
  (place : given.memberIndex = index)

include found place

theorem minimumForTarget_least (occupied : Int) :
    LeastBudget (fun raised => Legal budget raised ∧
        max (deterministicShare budget members.length index) occupied <
          deterministicShare raised members.length index)
      (given.minimumForTarget occupied) := by
  obtain ⟨sameBudget, count, isShare, -⟩ := share_of_inventory found place
  rw [TreeShare.minimumForTarget, sameBudget, count, isShare, place]
  exact (leastBudget_find? budget _).congr fun raised => and_congr_right fun _ => decide_eq_true_iff

/-- A tree that is not frozen stays so, and the target's room grows with its share. -/
theorem suggestion_unfrozen (fit : fits budget members = true)
    (here : members[index]? = some target) :
    LeastBudget (Helps members index budget target.fixedLive (given.capacityNow target.fixedLive))
      (given.minimumTreeTaskBudget target.fixedLive) := by
  obtain ⟨-, -, isShare, isFrozen, -⟩ := share_of_inventory found place
  rw [fit, Bool.not_true] at isFrozen
  rw [TreeShare.minimumTreeTaskBudget, TreeShare.capacityNow, isFrozen, isShare]
  refine (minimumForTarget_least found place target.fixedLive).congr fun raised => ?_
  have within := fits_iff.mp fit index target here
  simp only [Helps, treeCapacity, Bool.false_eq_true, if_false]
  refine and_congr_right fun legal => ?_
  rw [and_iff_right (fits_mono legal.1.le fit)]
  omega

/-- In a frozen tree both searches must succeed. -/
theorem suggestion_frozen (over_ : fits budget members = false) (occupied : Int) :
    LeastBudget (fun raised =>
        (Legal budget raised ∧
          max (deterministicShare budget members.length index) occupied <
            deterministicShare raised members.length index) ∧
        (Legal budget raised ∧ fits raised members = true))
      (given.minimumTreeTaskBudget occupied) := by
  obtain ⟨-, -, -, isFrozen, isUnfreeze⟩ := share_of_inventory found place
  rw [over_, Bool.not_false] at isFrozen isUnfreeze
  rw [if_pos rfl] at isUnfreeze
  rw [TreeShare.minimumTreeTaskBudget, isFrozen, if_pos rfl, isUnfreeze]
  have unfreezes := leastBudget_find? budget fun raised => fits raised members
  refine LeastBudget.both (fun raised higher above inRange ⟨legal, more⟩ => ?_)
    (fun raised higher above inRange ⟨legal, fit⟩ => ?_) (fun raised either => ?_)
    (minimumForTarget_least found place occupied) unfreezes
  · exact ⟨⟨legal.1.trans_le above, inRange⟩,
      more.trans_le (deterministicShare_mono_budget above _ _)⟩
  · exact ⟨⟨legal.1.trans_le above, inRange⟩, fits_mono above fit⟩
  · rcases either with ⟨legal, -⟩ | ⟨legal, -⟩
    all_goals exact legal.2

theorem helps_frozen (over_ : fits budget members = false) (occupied raised : Int) :
    Helps members index budget occupied (given.capacityNow occupied) raised ↔
      Legal budget raised ∧ fits raised members = true ∧
        occupied < deterministicShare raised members.length index := by
  obtain ⟨-, -, -, isFrozen, -⟩ := share_of_inventory found place
  rw [over_, Bool.not_false] at isFrozen
  rw [Helps, TreeShare.capacityNow, isFrozen, if_pos rfl, treeCapacity]
  refine and_congr_right fun _ => and_congr_right fun _ => ?_
  omega

end Cases

/-- **The suggested budget is the least one that helps**, unless the tree is frozen while the
target is under its share and a raise can unfreeze it without raising that share. -/
theorem suggestion_least_iff (rootId trackId : Text) (budget : Int)
    (members : List MemberInventory) (given : TreeShare) (index : Nat) (target : MemberInventory)
    (found : treeShareFromMemberInventory rootId trackId budget members = .share given)
    (place : given.memberIndex = index) (here : members[index]? = some target) :
    LeastBudget (Helps members index budget target.fixedLive (given.capacityNow target.fixedLive))
        (given.minimumTreeTaskBudget target.fixedLive) ↔
      ¬ (fits budget members = false ∧
        target.fixedLive < deterministicShare budget members.length index ∧
        ∃ raised, Legal budget raised ∧ fits raised members = true ∧
          deterministicShare raised members.length index =
            deterministicShare budget members.length index) := by
  cases fit : fits budget members with
  | true =>
    refine iff_of_true (suggestion_unfrozen found place fit here) ?_
    rintro ⟨over_, -⟩
    cases over_
  | false =>
    have helps := helps_frozen found place fit target.fixedLive
    have suggested := suggestion_frozen found place fit target.fixedLive
    have grows : ∀ {raised}, Legal budget raised →
        deterministicShare budget members.length index ≤
          deterministicShare raised members.length index := fun legal =>
      deterministicShare_mono_budget legal.1.le _ _
    constructor
    · rintro least ⟨-, under, raised, legal, unfrozen, same⟩
      -- the raise helps, so something is suggested; but at a suggestion the share has grown
      have isThere := least.present.mpr ⟨raised, (helps raised).mpr ⟨legal, unfrozen, by omega⟩⟩
      obtain ⟨minimum, isMinimum⟩ := Option.isSome_iff_exists.mp isThere
      have below : minimum ≤ raised :=
        (least.least minimum isMinimum).2 ((helps raised).mpr ⟨legal, unfrozen, by omega⟩)
      have grown := (suggested.least minimum isMinimum).1.1.2
      have atMost := deterministicShare_mono_budget below members.length index
      omega
    · intro regular
      refine suggested.congr fun raised => ?_
      rw [helps]
      constructor
      · rintro ⟨⟨legal, _⟩, -, unfrozen⟩
        exact ⟨legal, unfrozen, by omega⟩
      · rintro ⟨legal, unfrozen, _⟩
        refine ⟨⟨legal, ?_⟩, legal, unfrozen⟩
        have atLeast := grows legal
        by_cases under : target.fixedLive < deterministicShare budget members.length index
        · have different : deterministicShare raised members.length index ≠
              deterministicShare budget members.length index := fun same =>
            regular ⟨rfl, under, raised, legal, unfrozen, same⟩
          omega
        · omega

/-! ## A tree that one more slot would unfreeze -/

/-- Three members share 63 slots; the first has 22 tasks in flight. -/
def crowdedMembers : List MemberInventory :=
  [⟨"a".toList, 0, 22⟩, ⟨"b".toList, 1, 0⟩, ⟨"c".toList, 1, 0⟩]

/-- The greatest budget unfreezes the tree and leaves the second member 21 slots, yet nothing is
suggested to it. -/
theorem suggestion_missing : ∃ given : TreeShare,
    treeShareFromMemberInventory "a".toList "b".toList 63 crowdedMembers = .share given ∧
      given.memberIndex = 1 ∧ given.admissionFrozen = true ∧
      Helps crowdedMembers 1 63 0 (given.capacityNow 0) 64 ∧
      given.minimumTreeTaskBudget 0 = none ∧
      ¬ LeastBudget (Helps crowdedMembers 1 63 0 (given.capacityNow 0))
        (given.minimumTreeTaskBudget 0) := by
  have found : treeShareFromMemberInventory "a".toList "b".toList 63 crowdedMembers =
      .share ⟨"a".toList, 63, 3, 1, 21, true, some 64⟩ := rfl
  have helps : Helps crowdedMembers 1 63 0 0 64 := ⟨⟨by decide, by decide⟩, by decide, by decide⟩
  refine ⟨_, found, rfl, rfl, helps, by decide, fun least => ?_⟩
  exact absurd (least.present.mpr ⟨64, helps⟩) (by decide)

/-- With its tasks within its shares, a tree of budget 63 suggests the next budget to the first
member. -/
theorem suggestion_least_roomy : ∃ given : TreeShare,
    treeShareFromMemberInventory "a".toList "a".toList 63
        [⟨"a".toList, 0, 21⟩, ⟨"b".toList, 1, 0⟩, ⟨"c".toList, 1, 0⟩] = .share given ∧
      given.minimumTreeTaskBudget 21 = some 64 ∧
      LeastBudget (Helps [⟨"a".toList, 0, 21⟩, ⟨"b".toList, 1, 0⟩, ⟨"c".toList, 1, 0⟩] 0 63 21
        (given.capacityNow 21)) (given.minimumTreeTaskBudget 21) := by
  have found : treeShareFromMemberInventory "a".toList "a".toList 63
      [⟨"a".toList, 0, 21⟩, ⟨"b".toList, 1, 0⟩, ⟨"c".toList, 1, 0⟩] =
      .share ⟨"a".toList, 63, 3, 0, 21, false, none⟩ := rfl
  refine ⟨_, found, by decide, ?_⟩
  refine (suggestion_least_iff _ _ _ _ _ 0 ⟨"a".toList, 0, 21⟩ found rfl rfl).mpr ?_
  rintro ⟨frozen, -⟩
  exact absurd frozen (by decide)

end Suggestion

end NeigeCalm.Tree
