import Mathlib.Data.List.Perm.Subperm
import NeigeCalm.Library.Json

/-!
# JSON values whatever their key order

An object is a finite map, so the order in which its members are listed means nothing:
`Json.Same` relates values that differ in such orders only.  `inKeyOrder` lists the members of
every object by their keys, and is a normal form for values whose objects have distinct keys
(`same_iff_inKeyOrder`).
-/

namespace NeigeCalm.Library.Json

open List

variable {N : Type}

/-- No object has a key twice. -/
inductive Distinct : Json N → Prop
  | null : Distinct .null
  | bool : Distinct (.bool b)
  | number : Distinct (.number n)
  | string : Distinct (.string s)
  | array (each : ∀ item ∈ items, Distinct item) : Distinct (.array items)
  | object (keys : (members.map Prod.fst).Nodup)
    (each : ∀ member ∈ members, Distinct member.2) : Distinct (.object members)

/-- Equal values, whatever their key order: objects have as many members, and each member of
the one has its counterpart in the other. -/
inductive Same : Json N → Json N → Prop
  | null : Same .null .null
  | bool : Same (.bool b) (.bool b)
  | number : Same (.number n) (.number n)
  | string : Same (.string s) (.string s)
  | array (length : items.length = items'.length)
    (each : ∀ (i : Nat) (item item' : Json N), items[i]? = some item → items'[i]? = some item' →
      Same item item') : Same (.array items) (.array items')
  | object (length : members.length = members'.length)
    (other : Text × Json N → Text × Json N) (known : ∀ member ∈ members, other member ∈ members')
    (key : ∀ member ∈ members, (other member).1 = member.1)
    (value : ∀ member ∈ members, Same member.2 (other member).2) :
    Same (.object members) (.object members')

/-! ## Members in key order -/

def byKey {α : Type} (members : List (Text × α)) : List (Text × α) :=
  members.mergeSort fun a b => a.1 ≤ b.1

section Sorting

variable {α : Type} {members : List (Text × α)}

theorem byKey_perm (members : List (Text × α)) : (byKey members).Perm members := mergeSort_perm _ _

theorem keys_byKey (keys : (members.map Prod.fst).Nodup) : ((byKey members).map Prod.fst).Nodup :=
  ((byKey_perm members).map Prod.fst).nodup_iff.mpr keys

/-- Distinct keys in order are strictly in order. -/
theorem byKey_sorted (keys : (members.map Prod.fst).Nodup) :
    (byKey members).Pairwise fun a b => a.1 < b.1 := by
  have ordered : (byKey members).Pairwise fun a b => a.1 ≤ b.1 := by
    have sorted : (byKey members).Pairwise fun a b => decide (a.1 ≤ b.1) = true := by
      refine pairwise_mergeSort (fun a b c first second => ?_) (fun a b => ?_) members
      · exact decide_eq_true ((of_decide_eq_true first).trans (of_decide_eq_true second))
      · simpa using le_total a.1 b.1
    exact sorted.imp of_decide_eq_true
  have apart : (byKey members).Pairwise fun a b => a.1 ≠ b.1 := pairwise_map.mp (keys_byKey keys)
  exact ordered.imp₂ (fun _ _ => lt_of_le_of_ne) apart

/-- The order of the members does not matter for their order by key. -/
theorem byKey_eq_of_perm (keys : (members.map Prod.fst).Nodup) (perm : members.Perm members') :
    byKey members = byKey members' := by
  have keys' : (members'.map Prod.fst).Nodup := (perm.map Prod.fst).nodup_iff.mp keys
  refine List.Perm.eq_of_pairwise (fun a b _ _ one two => ?_) (byKey_sorted keys)
    (byKey_sorted keys') ?_
  · exact absurd (one.trans two) (lt_irrefl _)
  · exact (byKey_perm members).trans (perm.trans (byKey_perm members').symm)

theorem byKey_map {β : Type} (f : α → β) (keys : (members.map Prod.fst).Nodup) :
    byKey (members.map fun member => (member.1, f member.2)) =
      (byKey members).map fun member => (member.1, f member.2) := by
  have sorted : ((byKey members).map fun member => (member.1, f member.2)).Pairwise
      fun a b => a.1 < b.1 := pairwise_map.mpr (byKey_sorted keys)
  have same : ((members.map fun member => (member.1, f member.2)).map Prod.fst).Nodup := by
    simpa [Function.comp_def] using keys
  refine List.Perm.eq_of_pairwise (fun a b _ _ one two => ?_) (byKey_sorted same) sorted ?_
  · exact absurd (one.trans two) (lt_irrefl _)
  · exact (byKey_perm _).trans ((byKey_perm members).map _).symm

end Sorting

mutual

/-- The value with the members of every object listed by their keys. -/
def inKeyOrder : Json N → Json N
  | .object members => .object (byKey (membersInOrder members))
  | .array items => .array (itemsInOrder items)
  | scalar => scalar

def itemsInOrder : List (Json N) → List (Json N)
  | [] => []
  | item :: rest => inKeyOrder item :: itemsInOrder rest

def membersInOrder : List (Text × Json N) → List (Text × Json N)
  | [] => []
  | (key, value) :: rest => (key, inKeyOrder value) :: membersInOrder rest

end

theorem itemsInOrder_eq_map : itemsInOrder items = items.map inKeyOrder := by
  induction items with
  | nil => rfl
  | cons _ _ ih => rw [itemsInOrder, ih]; rfl

theorem membersInOrder_eq_map (members : List (Text × Json N)) :
    membersInOrder members = members.map fun member => (member.1, inKeyOrder member.2) := by
  induction members with
  | nil => rfl
  | cons _ _ ih => rw [membersInOrder, ih]; rfl

theorem inKeyOrder_array (items : List (Json N)) :
    inKeyOrder (.array items) = .array (items.map inKeyOrder) := by
  rw [inKeyOrder, itemsInOrder_eq_map]

/-- The members in key order, each in key order. -/
theorem inKeyOrder_object {members : List (Text × Json N)} (keys : (members.map Prod.fst).Nodup) :
    inKeyOrder (.object members) =
      .object ((byKey members).map fun member => (member.1, inKeyOrder member.2)) := by
  rw [inKeyOrder, membersInOrder_eq_map, byKey_map _ keys]

theorem isScalar_inKeyOrder : (inKeyOrder value).isScalar = value.isScalar := by
  cases value <;> rfl

theorem inKeyOrder_of_isScalar (scalar : value.isScalar = true) : inKeyOrder value = value := by
  cases value <;> first | rfl | cases scalar

/-- Finitely many values fit below one depth. -/
theorem exists_depth {α : Type} {list : List α} (value : α → Json N)
    (each : ∀ entry ∈ list, ∃ depth, Valid depth (value entry)) :
    ∃ depth, ∀ entry ∈ list, Valid depth (value entry) := by
  induction list with
  | nil => exact ⟨0, fun _ none => absurd none not_mem_nil⟩
  | cons _ _ ih =>
    obtain ⟨⟨depth, here⟩, each⟩ := forall_mem_cons.mp each
    obtain ⟨deeper, later⟩ := ih each
    refine ⟨max depth deeper, forall_mem_cons.mpr ⟨here.mono (Nat.le_max_left ..), ?_⟩⟩
    exact fun other inside => (later other inside).mono (Nat.le_max_right ..)

/-- The normal form is a value that can be read. -/
theorem Distinct.valid {value : Json N} (distinct : Distinct value) :
    ∃ depth, Valid depth (inKeyOrder value) := by
  induction distinct with
  | null => exact ⟨0, .null⟩
  | bool => exact ⟨0, .bool⟩
  | number => exact ⟨0, .number⟩
  | string => exact ⟨0, .string⟩
  | @array _ _ ih =>
    obtain ⟨depth, each⟩ := exists_depth inKeyOrder ih
    refine ⟨depth + 1, ?_⟩
    rw [inKeyOrder_array]
    refine .array fun item inside => ?_
    obtain ⟨original, known, rfl⟩ := mem_map.mp inside
    exact each original known
  | @object members keys _ ih =>
    obtain ⟨depth, each⟩ := exists_depth (fun member : Text × Json N => inKeyOrder member.2) ih
    refine ⟨depth + 1, ?_⟩
    rw [inKeyOrder_object keys]
    refine .object (pairwise_map.mpr (byKey_sorted keys)) fun member inside => ?_
    obtain ⟨original, known, rfl⟩ := mem_map.mp inside
    exact each original ((byKey_perm members).mem_iff.mp known)

/-! ## The normal form decides equality -/

theorem Same.inKeyOrder_eq (same : Same value other) (distinct : Distinct value)
    (distinct' : Distinct other) : inKeyOrder value = inKeyOrder other := by
  induction same with
  | null | bool | number | string => rfl
  | @array _ _ length _ ih =>
    cases distinct with
    | array left =>
      cases distinct' with
      | array right =>
        rw [inKeyOrder_array, inKeyOrder_array]
        refine congrArg Json.array (ext_getElem (by simpa using length) fun i inside inside' => ?_)
        simp only [length_map] at inside inside'
        simp only [getElem_map]
        exact ih i _ _ (getElem?_eq_getElem inside) (getElem?_eq_getElem inside')
          (left _ (getElem_mem inside)) (right _ (getElem_mem inside'))
  | @object members members' length other known key _ ih =>
    cases distinct with
    | object keys left =>
      cases distinct' with
      | object _ right =>
        have nodup : (membersInOrder members).Nodup := by
          rw [membersInOrder_eq_map]
          refine List.Nodup.of_map Prod.fst ?_
          simpa [Function.comp_def] using keys
        have inside : membersInOrder members ⊆ membersInOrder members' := by
          rw [membersInOrder_eq_map, membersInOrder_eq_map]
          intro entry inside
          obtain ⟨member, here, rfl⟩ := mem_map.mp inside
          refine mem_map.mpr ⟨other member, known member here, ?_⟩
          rw [key member here, ih member here (left member here) (right _ (known member here))]
        have perm : (membersInOrder members).Perm (membersInOrder members') := by
          refine (nodup.subperm inside).perm_of_length_le ?_
          simp [membersInOrder_eq_map, length]
        have keysInOrder : ((membersInOrder members).map Prod.fst).Nodup := by
          rw [membersInOrder_eq_map]
          simpa [Function.comp_def] using keys
        rw [inKeyOrder, inKeyOrder, byKey_eq_of_perm keysInOrder perm]

theorem same_of_inKeyOrder_eq {value other : Json N} (distinct : Distinct value)
    (distinct' : Distinct other) (same : inKeyOrder value = inKeyOrder other) :
    Same value other := by
  induction distinct generalizing other with
  | null => cases other <;> first | exact .null | cases same
  | bool => cases other <;> first | (cases same; exact .bool) | cases same
  | number => cases other <;> first | (cases same; exact .number) | cases same
  | string => cases other <;> first | (cases same; exact .string) | cases same
  | @array _ _ ih =>
    cases distinct' with
    | @array _ right =>
      rw [inKeyOrder_array, inKeyOrder_array] at same
      have lists := Json.array.inj same
      refine .array (by simpa using congrArg length lists) fun i item item' here here' => ?_
      have atI := congrArg (fun list => list[i]?) lists
      simp only [getElem?_map, here, here', Option.map_some, Option.some.injEq] at atI
      exact ih item (mem_of_getElem? here) (right item' (mem_of_getElem? here')) atI
    | null | bool | number | string => cases same
    | object => cases same
  | @object members _ _ ih =>
    cases distinct' with
    | @object members' _ right =>
      rw [inKeyOrder, inKeyOrder] at same
      have lists := Json.object.inj same
      have perm : (membersInOrder members).Perm (membersInOrder members') :=
        (byKey_perm _).symm.trans (lists ▸ byKey_perm _)
      rw [membersInOrder_eq_map, membersInOrder_eq_map] at perm
      have counterpart : ∀ member : Text × Json N, ∃ member', member ∈ members →
          member' ∈ members' ∧ member'.1 = member.1 ∧
            inKeyOrder member.2 = inKeyOrder member'.2 := by
        intro member
        by_cases here : member ∈ members
        · have inside := perm.mem_iff.mp (mem_map_of_mem here)
          obtain ⟨member', known, equal⟩ := mem_map.mp inside
          obtain ⟨sameKey, sameValue⟩ := Prod.mk.inj equal
          exact ⟨member', fun _ => ⟨known, sameKey, sameValue.symm⟩⟩
        · exact ⟨member, fun inside => absurd inside here⟩
      choose counter facts using counterpart
      refine .object ?_ counter (fun member here => (facts member here).1)
        (fun member here => (facts member here).2.1) fun member here => ?_
      · simpa using perm.length_eq
      · obtain ⟨known, -, equal⟩ := facts member here
        exact ih member here (right _ known) equal
    | null | bool | number | string => cases same
    | array => cases same

/-- **Equality whatever the key order** is equality in key order. -/
theorem same_iff_inKeyOrder (distinct : Distinct value) (distinct' : Distinct other) :
    Same value other ↔ inKeyOrder value = inKeyOrder other :=
  ⟨fun same => same.inKeyOrder_eq distinct distinct', same_of_inKeyOrder_eq distinct distinct'⟩

end NeigeCalm.Library.Json
