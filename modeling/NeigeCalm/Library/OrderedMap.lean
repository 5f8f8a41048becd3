import Mathlib.Data.List.Perm.Subperm
import Mathlib.Data.List.Range
import Std.Data.ExtTreeMap
import Std.Data.ExtTreeSet

/-!
# Ordered maps by their lookups

Ordered maps are `Std.ExtTreeMap`, in which maps of equal lookups are equal.
This module has the few facts about them that are stated for lawful keys (so
that comparing equal is being equal), and the counting of maps whose keys are
indices below a bound.
-/

namespace NeigeCalm.Library

open List Std

namespace OrderedMap

variable {K V : Type} [Ord K] [TransOrd K] [LawfulEqOrd K]

variable (m : ExtTreeMap K V) (key other : K)

theorem get_insert [DecidableEq K] (value : V) :
    (m.insert key value)[other]? = if other = key then some value else m[other]? := by
  rw [ExtTreeMap.getElem?_insert]
  by_cases same : other = key
  · simp [same]
  · simp [same, Ne.symm same]

theorem mem_insert (value : V) : other ∈ m.insert key value ↔ other = key ∨ other ∈ m := by
  rw [ExtTreeMap.mem_insert, LawfulEqCmp.compare_eq_iff_eq, eq_comm]

theorem get_erase [DecidableEq K] :
    (m.erase key)[other]? = if other = key then none else m[other]? := by
  rw [ExtTreeMap.getElem?_erase]
  by_cases same : other = key
  · simp [same]
  · simp [same, Ne.symm same]

/-- What is stored first stays. -/
theorem get_insertIfNew [DecidableEq K] : (m.insertIfNew key value)[other]? =
      m[other]?.or (if other = key then some value else none) := by
  rw [ExtTreeMap.getElem?_insertIfNew]
  by_cases same : other = key
  · subst same
    by_cases known : other ∈ m
    · obtain ⟨_, isStored⟩ := Option.isSome_iff_exists.mp
        (ExtTreeMap.isSome_getElem?_iff_mem.mpr known)
      rw [if_neg fun both => both.2 known, isStored, Option.some_or]
    · rw [if_pos ⟨ReflCmp.compare_self, known⟩,
        ExtTreeMap.getElem?_eq_none known, if_pos rfl, Option.none_or]
  · rw [if_neg fun both => same (LawfulEqCmp.eq_of_compare both.1).symm, if_neg same,
      Option.or_none]

theorem insert_insert :
    (m.insert key first).insert key second = m.insert key second := by
  apply ExtTreeMap.ext_getElem?
  intro other
  simp only [ExtTreeMap.getElem?_insert]
  split <;> rfl

/-- Writing back what is stored changes nothing. -/
theorem insert_of_get {m : ExtTreeMap K V} {key : K} {value : V}
    (found : m[key]? = some value) : m.insert key value = m := by
  apply ExtTreeMap.ext_getElem?
  intro other
  rw [ExtTreeMap.getElem?_insert]
  split
  next same =>
    obtain rfl := LawfulEqCmp.eq_of_compare same
    exact found.symm
  next => rfl

theorem insert_comm {m : ExtTreeMap K V} {first second : K} (different : first ≠ second) :
    (m.insert first a).insert second b = (m.insert second b).insert first a := by
  apply ExtTreeMap.ext_getElem?
  intro other
  simp only [ExtTreeMap.getElem?_insert, LawfulEqCmp.compare_eq_iff_eq]
  by_cases one : first = other
  · subst one
    simp [Ne.symm different]
  · by_cases two : second = other <;> simp [one, two]

/-! ## Sets -/

theorem mem_set_insert (m : ExtTreeSet K) (key other : K) :
    other ∈ m.insert key ↔ other = key ∨ other ∈ m := by
  rw [ExtTreeSet.mem_insert, LawfulEqCmp.compare_eq_iff_eq, eq_comm]

theorem mem_set_insertMany [DecidableEq K] (m : ExtTreeSet K) (keys : List K) (other : K) :
    other ∈ m.insertMany keys ↔ other ∈ m ∨ other ∈ keys := by
  rw [ExtTreeSet.mem_insertMany_list, contains_iff_mem]

theorem mem_set_ofList [DecidableEq K] (keys : List K) (other : K) :
    other ∈ (ExtTreeSet.ofList keys) ↔ other ∈ keys := by
  rw [ExtTreeSet.mem_ofList, contains_iff_mem]

/-- A traversal that yields something at one key only yields what is stored there. -/
theorem flatMap_toList [DecidableEq K] {A : Type} {key : K} {f : K → V → List A}
    (elsewhere : ∀ other value, other ≠ key → f other value = []) :
    (m.toList.flatMap fun (k, v) => f k v) = (m[key]?).elim [] (f key) := by
  have nodup : (m.toList.map Prod.fst).Nodup := by
    rw [ExtTreeMap.map_fst_toList_eq_keys]
    exact ExtTreeMap.nodup_keys
  have stored : ∀ value, (key, value) ∈ m.toList ↔ m[key]? = some value :=
    fun value => ExtTreeMap.mem_toList_iff_getElem?_eq_some
  generalize m.toList = entries at nodup stored
  generalize m[key]? = found at stored
  induction entries generalizing found with
  | nil =>
    cases found with
    | none => rfl
    | some value => exact absurd ((stored value).mpr rfl) not_mem_nil
  | cons entry rest ih =>
    obtain ⟨other, value⟩ := entry
    rw [map_cons, nodup_cons] at nodup
    obtain ⟨fresh, nodup⟩ := nodup
    by_cases same : other = key
    · subst same
      have here : found = some value := ((stored value).mp mem_cons_self).symm ▸ rfl
      have nothing : (rest.flatMap fun (k, v) => f k v) = [] := by
        rw [flatMap_eq_nil_iff]
        rintro ⟨k, v⟩ member
        apply elsewhere
        rintro rfl
        exact fresh (mem_map.mpr ⟨_, member, rfl⟩)
      simp [here, nothing]
    · simp only [flatMap_cons, elsewhere other value same, nil_append]
      refine ih nodup found fun value' => ?_
      rw [← stored value', mem_cons]
      constructor
      · exact .inr
      · rintro (here | member)
        · exact absurd (congrArg Prod.fst here).symm same
        · exact member

/-! ## Maps of lists without repeated keys -/

omit [TransOrd K] in
theorem distinct_of_nodup {l : List (K × V)} (nodup : (l.map Prod.fst).Nodup) :
    l.Pairwise fun a b => ¬ compare a.1 b.1 = .eq := by
  rw [nodup_iff_pairwise_ne, pairwise_map] at nodup
  exact nodup.imp fun different same => different (LawfulEqCmp.eq_of_compare same)

theorem get_ofList_iff [DecidableEq K] {l : List (K × V)} (nodup : (l.map Prod.fst).Nodup) {key : K}
    {value : V} : (ExtTreeMap.ofList l)[key]? = some value ↔ (key, value) ∈ l := by
  have stored : ∀ {v}, (key, v) ∈ l → (ExtTreeMap.ofList l)[key]? = some v := fun member =>
    ExtTreeMap.getElem?_ofList_of_mem ReflCmp.compare_self (distinct_of_nodup nodup) member
  refine ⟨fun found => ?_, stored⟩
  have present : key ∈ ExtTreeMap.ofList l := by
    rw [ExtTreeMap.mem_iff_isSome_getElem?, found]
    rfl
  rw [ExtTreeMap.mem_ofList, contains_iff_mem] at present
  obtain ⟨_, pair, rfl⟩ := mem_map.mp present
  rw [stored pair] at found
  exact Option.some.inj found ▸ pair

/-- A map of the keys of a list without repetition has its size. -/
theorem size_eq_length {m : ExtTreeMap K V} {keys : List K} (nodup : keys.Nodup)
    (same : ∀ key, key ∈ m ↔ key ∈ keys) : m.size = keys.length := by
  have perm : m.keys.Perm keys := (perm_ext_iff_of_nodup ExtTreeMap.nodup_keys nodup).mpr
    fun key => ExtTreeMap.mem_keys.trans (same key)
  rw [← ExtTreeMap.length_keys]
  exact perm.length_eq

/-! ## Sorted lists -/

omit [LawfulEqOrd K] in
theorem nodup_of_sorted {l : List K} (sorted : l.Pairwise fun a b => compare a b = .lt) :
    l.Nodup := by
  refine sorted.imp ?_
  rintro a b less rfl
  have self : compare a a = .eq := ReflCmp.compare_self
  cases self.symm.trans less

omit [LawfulEqOrd K] in
/-- Lists in strict order are equal when they have the same members. -/
theorem eq_of_sorted {l l' : List K} (sorted : l.Pairwise fun a b => compare a b = .lt)
    (sorted' : l'.Pairwise fun a b => compare a b = .lt) (same : ∀ a, a ∈ l ↔ a ∈ l') : l = l' := by
  refine List.Perm.eq_of_pairwise (fun a b _ _ less greater => absurd greater ?_) sorted sorted' ?_
  · have swapped : compare b a = (compare a b).swap := OrientedCmp.eq_swap
    rw [swapped, less]
    decide
  · exact (perm_ext_iff_of_nodup (nodup_of_sorted sorted) (nodup_of_sorted sorted')).mpr same

/-- A map lists the values of its keys, in order of key. -/
theorem toList_eq_map {m : ExtTreeMap K V} {keys : List K} {f : K → V}
    (sorted : keys.Pairwise fun a b => compare a b = .lt)
    (stored : ∀ key value, m[key]? = some value ↔ key ∈ keys ∧ value = f key) :
    m.toList = keys.map fun key => (key, f key) := by
  have isKeys : m.keys = keys := by
    apply eq_of_sorted ExtTreeMap.ordered_keys sorted
    intro key
    rw [ExtTreeMap.mem_keys, ExtTreeMap.mem_iff_isSome_getElem?, Option.isSome_iff_exists]
    constructor
    · rintro ⟨value, found⟩
      exact ((stored key value).mp found).1
    · intro among
      exact ⟨f key, (stored key (f key)).mpr ⟨among, rfl⟩⟩
  rw [← isKeys, ← ExtTreeMap.map_fst_toList_eq_keys, map_map]
  conv_lhs => rw [← map_id m.toList]
  apply map_congr_left
  rintro ⟨key, value⟩ among
  have found := ExtTreeMap.mem_toList_iff_getElem?_eq_some.mp among
  simp [((stored key value).mp found).2]

/-! ## Maps indexed below a bound -/

theorem size_eq_iff_full {m : ExtTreeMap Nat V} {n : Nat} (bounded : ∀ i ∈ m, i < n) :
    m.size = n ↔ ∀ i < n, i ∈ m := by
  have subset : m.keys ⊆ range n := fun i member =>
    mem_range.mpr (bounded i (ExtTreeMap.mem_keys.mp member))
  have subperm := ExtTreeMap.nodup_keys.subperm subset
  rw [← ExtTreeMap.length_keys]
  constructor
  · intro length i below
    have perm := subperm.perm_of_length_le (by simp [length])
    exact ExtTreeMap.mem_keys.mp (perm.mem_iff.mpr (mem_range.mpr below))
  · intro full
    have reverse : range n ⊆ m.keys := fun i member =>
      ExtTreeMap.mem_keys.mpr (full i (mem_range.mp member))
    have perm := subperm.antisymm (nodup_range.subperm reverse)
    simpa using perm.length_eq

/-- A map of exactly the indices below `n` lists its values in index order. -/
theorem toList_eq_range {m : ExtTreeMap Nat V} {n : Nat} {f : Nat → V}
    (stored : ∀ i v, m[i]? = some v ↔ i < n ∧ v = f i) :
    m.toList = (range n).map fun i => (i, f i) := by
  have sorted : (m.toList.map Prod.fst).Pairwise (· < ·) := by
    rw [pairwise_map]
    exact ExtTreeMap.ordered_keys_toList.imp Nat.compare_eq_lt.mp
  have sorted' : (((range n).map fun i => (i, f i)).map Prod.fst).Pairwise (· < ·) := by
    simpa [Function.comp_def] using pairwise_lt_range
  rw [pairwise_map] at sorted sorted'
  refine List.Perm.eq_of_pairwise (fun a b _ _ less greater => absurd less greater.asymm)
    sorted sorted' ?_
  rw [perm_ext_iff_of_nodup (sorted.imp fun less same => by simp [same] at less)
    (sorted'.imp fun less same => by simp [same] at less)]
  rintro ⟨i, v⟩
  rw [ExtTreeMap.mem_toList_iff_getElem?_eq_some, stored]
  simp only [mem_map, mem_range, Prod.mk.injEq]
  constructor
  · rintro ⟨below, rfl⟩
    exact ⟨i, below, rfl, rfl⟩
  · rintro ⟨j, below, rfl, rfl⟩
    exact ⟨below, rfl⟩

end OrderedMap

end NeigeCalm.Library
