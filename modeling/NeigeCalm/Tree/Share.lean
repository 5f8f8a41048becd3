import NeigeCalm.Library.Lines
import Mathlib.Algebra.BigOperators.Group.List.Basic
import Mathlib.Tactic.Linarith
import Mathlib.Tactic.Ring

/-!
# Shares of a tree's task budget

The tracks of a tree share one budget of unfinished planner tasks.  The share of a member is
a function of the budget, the number of members and its position among them, and of nothing
else: `⌊B / N⌋` each and one more for the first `B mod N`.
-/

namespace NeigeCalm.Tree

open Library List

def maxTreeTaskBudget : Int := 64

def maxTrackTreeDepth : Int := 3

def defaultTreeTaskBudget : Int := 32

def effectiveLimit (value : Option Int) (default : Int) : Int := max (value.getD default) 0

def deterministicShare (budget members index : Int) : Int :=
  if members ≤ 0 then 0
  else max budget 0 / members + if index < max budget 0 % members then 1 else 0

/-- Whether a member may be added without a share of zero. -/
def canAddTreeMember (budget members : Int) : Bool := decide (members + 1 ≤ max budget 0)

/-! ## Terms -/

structure TreeShare where
  rootId : Text
  budget : Int
  members : Int
  memberIndex : Int
  share : Int
  /-- Some member already holds more than its share: nobody may start anything. -/
  admissionFrozen : Bool
  minimumBudgetToUnfreeze : Option Int

inductive TrackTreeTerm where
  | rootUnresolved
  | share (share : TreeShare)

def TrackTreeTerm.isFrozen : TrackTreeTerm → Bool
  | .rootUnresolved => false
  | .share given => given.admissionFrozen

/-- A member as the tree walk lists it, with its planner tasks in flight. -/
structure MemberInventory where
  id : Text
  depth : Int
  fixedLive : Int

/-- Every member's tasks in flight fit its share of `budget`. -/
def fits (budget : Int) (members : List MemberInventory) : Bool :=
  members.zipIdx.all fun (member, index) =>
    member.fixedLive ≤ deterministicShare budget members.length index

/-- The budgets above the current one, up to the greatest allowed. -/
def raisedBudgets (budget : Int) : List Int :=
  (range (maxTreeTaskBudget - budget).toNat).map fun step => budget + 1 + step

def treeShareFromMemberInventory (rootId trackId : Text) (budget : Int)
    (members : List MemberInventory) : TrackTreeTerm :=
  let admissionFrozen := !fits budget members
  match members.findIdx? fun member => member.id == trackId with
  | none => .rootUnresolved
  | some index =>
    if members.any fun member => maxTrackTreeDepth < member.depth then .rootUnresolved
    else .share
      { rootId
        budget
        members := members.length
        memberIndex := index
        share := deterministicShare budget members.length index
        admissionFrozen
        minimumBudgetToUnfreeze :=
          if admissionFrozen then (raisedBudgets budget).find? fun raised => fits raised members
          else none }

/-! ## Arithmetic of shares -/

/-- Of the first `members` positions exactly `remainder` get one more. -/
theorem sum_remainder (members remainder : Nat) :
    ((range members).map fun index : Nat =>
      if (index : Int) < remainder then (1 : Int) else 0).sum = min members remainder := by
  induction members with
  | zero => simp
  | succ _ ih =>
    rw [range_succ, map_append, sum_append, ih]
    simp only [map_cons, map_nil, sum_cons, sum_nil]
    split <;> omega

/-- The shares add up to the budget. -/
theorem sum_shares (budget : Int) (some : 0 < members) :
    ((range members).map fun index : Nat => deterministicShare budget members index).sum =
      max budget 0 := by
  have positive : (0 : Int) < members := by omega
  obtain ⟨remainder, isRemainder⟩ := Int.eq_ofNat_of_zero_le
    (Int.emod_nonneg (max budget 0) positive.ne')
  have less : (remainder : Int) < members := by
    rw [← isRemainder]
    exact Int.emod_lt_of_pos _ positive
  have split : ∀ index : Nat, deterministicShare budget members index =
      max budget 0 / members + if (index : Int) < remainder then 1 else 0 := by
    intro index
    rw [deterministicShare, if_neg (by omega), isRemainder]
  have division := Int.mul_ediv_add_emod (max budget 0) members
  simp only [split, sum_map_add, sum_remainder, map_const', length_range,
    sum_replicate, nsmul_eq_mul]
  rw [min_eq_right (by exact_mod_cast less.le)]
  rw [isRemainder] at division
  linarith

/-- Fewer members and an earlier position give no smaller share. -/
theorem deterministicShare_mono (some : 0 < members') (fewer : members' ≤ members)
    (earlier : index' ≤ index) :
    deterministicShare budget members index ≤ deterministicShare budget members' index' := by
  have positive : 0 < members := by omega
  rw [deterministicShare, deterministicShare, if_neg (not_le.mpr positive),
    if_neg (not_le.mpr some)]
  generalize isTotal : max budget 0 = total
  have nonneg : 0 ≤ total := isTotal ▸ le_max_right _ _
  have division := Int.mul_ediv_add_emod total members
  have division' := Int.mul_ediv_add_emod total members'
  have remainder := Int.emod_nonneg total positive.ne'
  have remainder' := Int.emod_lt_of_pos total some
  have base : 0 ≤ total / members := Int.ediv_nonneg nonneg positive.le
  -- The quotient does not fall; when it stays, what was divided off goes to the remainder.
  have quotient : total / members ≤ total / members' := by
    by_contra lower
    have step : total / members' + 1 ≤ total / members := by omega
    nlinarith
  rcases lt_or_eq_of_le quotient with _ | same
  · split <;> split <;> omega
  · have grows : total % members ≤ total % members' := by
      rw [same] at division base
      nlinarith
    split <;> split <;> omega

end NeigeCalm.Tree
