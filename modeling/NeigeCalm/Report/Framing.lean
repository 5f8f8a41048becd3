import NeigeCalm.Report.Refinement

/-!
# Rewrites of a part of the report

A rewrite may own only some of the blocks.  The others are kept: each stands right after the
block that it stood after, as far as that one is still there.  `standsAfter` says which block
that is, from the blocks before it alone; the slots of the code are counted from it
(`slot_standsAfter`).

`partial_rewrites_frame` says for every document that a rewrite of selected blocks, or of the
members of a section, neither loses, repeats, renames nor changes a block that it does not own.
-/

namespace NeigeCalm.Report

open Library List Fallible

variable {N : Type}

section Kept

variable {current replaced : List (ReportBlock N)} {slots : List (Nat × ReportBlock N)}

/-! ## Where a kept block stands -/

/-- The block that a kept block stands after, from the blocks `before` it: the nearest rewritten
one that survives, else the first of the result if a rewritten one was before it at all.  `none`
is in front. -/
def standsAfter (rewritten : ReportBlock N → Bool) (replaced before : List (ReportBlock N)) :
    Option Text :=
  match before.reverse.find? fun block =>
      rewritten block && decide (block.id ∈ replaced.map ReportBlock.id) with
  | some anchor => some anchor.id
  | none => if before.any rewritten then replaced.head?.map ReportBlock.id else none

/-- What a rewrite of the selected blocks leaves.  `replaced` are the new blocks. -/
structure Framed (rewritten : ReportBlock N → Bool)
    (current replaced result : List (ReportBlock N)) : Prop where
  /-- A block that is not selected is there once, as it was. -/
  kept : ∀ block ∈ current, rewritten block = false →
    result.filter (fun other => other.id = block.id) = [block]
  /-- The rest of the result is the new blocks in their order. -/
  selected : result.filter (fun block =>
    block.id ∉ (current.filter fun block => !rewritten block).map ReportBlock.id) = replaced
  /-- Only kept blocks are between a kept block and the block it stands after. -/
  placed : ∀ (before after : List (ReportBlock N)) (block : ReportBlock N),
    current = before ++ block :: after → rewritten block = false →
    ∃ front gap rest, result = front ++ gap ++ block :: rest ∧
      front.getLast?.map ReportBlock.id = standsAfter rewritten replaced before ∧
      ∀ other ∈ gap, other ∈ current ∧ rewritten other = false
  /-- Kept blocks that stand after the same block have their old order. -/
  ordered : ∀ (before between after : List (ReportBlock N)) (one other : ReportBlock N),
    current = before ++ one :: between ++ other :: after → rewritten one = false →
    rewritten other = false →
    standsAfter rewritten replaced before =
      standsAfter rewritten replaced (before ++ one :: between) →
    [one, other].Sublist result
  distinct : (result.map ReportBlock.id).Nodup

/-! ## Slots -/

/-- The position of the last block that survives, `anchor` before the first one. -/
def lastSurvivor (rewritten : ReportBlock N → Bool) (replaced : List (ReportBlock N)) :
    Option Nat → List (ReportBlock N) → Option Nat
  | anchor, [] => anchor
  | anchor, block :: rest =>
    lastSurvivor rewritten replaced
      (if rewritten block then
        (replaced.findIdx? fun other => other.id = block.id).or anchor
      else anchor) rest

theorem keptSlots_append (anchor : Option Nat) (after : Bool) (before rest : List (ReportBlock N)) :
    keptSlots rewritten replaced anchor after (before ++ rest) =
      keptSlots rewritten replaced anchor after before ++
        keptSlots rewritten replaced (lastSurvivor rewritten replaced anchor before)
          (after || before.any rewritten) rest := by
  induction before generalizing anchor after with
  | nil => simp [keptSlots, lastSurvivor]
  | cons block _ ih =>
    rw [cons_append, keptSlots, keptSlots, lastSurvivor, any_cons]
    by_cases selected : rewritten block = true
    · simp only [selected, if_true, ih, Bool.true_or, Bool.or_true]
    · simp only [selected, Bool.false_eq_true, if_false, ih, Bool.false_or, cons_append]

theorem lastSurvivor_append (anchor : Option Nat) (before : List (ReportBlock N))
    (block : ReportBlock N) :
    lastSurvivor rewritten replaced anchor (before ++ [block]) =
      if rewritten block then
        (replaced.findIdx? fun other => other.id = block.id).or
          (lastSurvivor rewritten replaced anchor before)
      else lastSurvivor rewritten replaced anchor before := by
  induction before generalizing anchor with
  | nil => rfl
  | cons _ _ ih => exact ih _

/-- The slot of the block that stands after a block with this id. -/
def slotAfter (replaced : List (ReportBlock N)) : Option Text → Nat
  | none => 0
  | some id => replaced.findIdx (fun other => other.id = id) + 1

theorem lastSurvivor_eq :
    lastSurvivor rewritten replaced none before =
      (before.reverse.find? fun block =>
        rewritten block && decide (block.id ∈ replaced.map ReportBlock.id)).map fun anchor =>
          replaced.findIdx fun other => other.id = anchor.id := by
  induction before using reverseRecOn with
  | nil => rfl
  | append_singleton _ block ih =>
    rw [lastSurvivor_append, ih, reverse_append, reverse_singleton, singleton_append, find?_cons]
    by_cases selected : rewritten block = true
    · rw [if_pos selected]
      by_cases survives : block.id ∈ replaced.map ReportBlock.id
      · have known : replaced.findIdx? (fun other => decide (other.id = block.id)) =
            some (replaced.findIdx fun other => decide (other.id = block.id)) := by
          obtain ⟨other, inside, same⟩ := mem_map.mp survives
          exact findIdx?_eq_some_of_exists ⟨other, inside, decide_eq_true same⟩
        simp only [selected, survives, decide_true, Bool.and_self, known, Option.some_or,
          Option.map_some]
      · have none : replaced.findIdx? (fun other => decide (other.id = block.id)) = none := by
          refine findIdx?_eq_none_iff.mpr fun other inside => decide_eq_false fun same => ?_
          exact survives (mem_map.mpr ⟨other, inside, same⟩)
        simp only [selected, survives, decide_false, Bool.and_false, none, Option.none_or]
    · simp only [selected, Bool.false_and, Bool.false_eq_true, if_false]

/-- **The slot of a kept block is counted from the block it stands after.** -/
theorem slot_standsAfter (before : List (ReportBlock N)) :
    keptSlot replaced.length (lastSurvivor rewritten replaced none before)
        (false || before.any rewritten) =
      slotAfter replaced (standsAfter rewritten replaced before) := by
  rw [lastSurvivor_eq, standsAfter, Bool.false_or]
  cases before.reverse.find? fun block =>
      rewritten block && decide (block.id ∈ replaced.map ReportBlock.id) with
  | some anchor => rfl
  | none =>
    cases before.any rewritten with
    | false => rfl
    | true =>
      cases replaced with
      | nil => rfl
      | cons =>
        simp [keptSlot, slotAfter, findIdx_cons]

theorem keptSlots_split {before after : List (ReportBlock N)}
    (whole : current = before ++ block :: after) (kept : rewritten block = false) :
    ∃ later, keptSlots rewritten replaced none false current =
      keptSlots rewritten replaced none false before ++
        (slotAfter replaced (standsAfter rewritten replaced before), block) :: later := by
  rw [whole, keptSlots_append, keptSlots, slot_standsAfter, if_neg (by simp [kept])]
  exact ⟨_, rfl⟩

/-! ## The filled list -/

/-- The blocks of one slot stand right after the block of the slot before. -/
theorem fillSlots_split (slots : List (Nat × ReportBlock N)) (inside : slot ≤ replaced.length) :
    ∃ front rest,
      fillSlots slots replaced = front ++ (slots.filter (·.1 = slot)).map Prod.snd ++ rest ∧
        front.getLast? = if slot = 0 then none else replaced[slot - 1]? := by
  have whole : range (replaced.length + 1) =
      range slot ++ slot :: range' (slot + 1) (replaced.length - slot) := by
    have parts := @range'_append_1 0 slot (replaced.length - slot + 1)
    rw [Nat.zero_add, show slot + (replaced.length - slot + 1) = replaced.length + 1
      by omega] at parts
    rw [range_eq_range', range_eq_range', ← range'_succ, parts]
  let filled (slot : Nat) := (slots.filter (·.1 = slot)).map Prod.snd ++ (replaced[slot]?).toList
  refine ⟨(range slot).flatMap filled, (replaced[slot]?).toList ++
    (range' (slot + 1) (replaced.length - slot)).flatMap filled, ?_, ?_⟩
  · rw [fillSlots, whole, flatMap_append, flatMap_cons]
    simp only [filled, append_assoc]
  · cases slot with
    | zero => rfl
    | succ =>
      rw [range_succ, flatMap_append, flatMap_singleton, if_neg (Nat.succ_ne_zero _),
        Nat.add_sub_cancel]
      simp only [filled, getElem?_eq_getElem inside, Option.toList_some]
      simp

/-- Between the block of the slot before and a kept block are kept blocks of earlier slots. -/
theorem fillSlots_placed (split : slots = early ++ (slot, block) :: later)
    (inside : slot ≤ replaced.length) :
    ∃ front gap rest, fillSlots slots replaced = front ++ gap ++ block :: rest ∧
      (front.getLast? = if slot = 0 then none else replaced[slot - 1]?) ∧
      ∀ other ∈ gap, ∃ slot ∈ slots, slot.2 = other := by
  obtain ⟨front, rest, filled, last⟩ := fillSlots_split slots inside
  have kept : (slots.filter (·.1 = slot)).map Prod.snd =
      (early.filter (·.1 = slot)).map Prod.snd ++ block ::
        (later.filter (·.1 = slot)).map Prod.snd := by
    rw [split, filter_append, filter_cons_of_pos (by simp), map_append, map_cons]
  rw [kept] at filled
  refine ⟨front, (early.filter (·.1 = slot)).map Prod.snd,
    (later.filter (·.1 = slot)).map Prod.snd ++ rest, ?_, last, fun other known => ?_⟩
  · rw [filled]
    simp only [append_assoc, cons_append]
  · obtain ⟨entry, isEarly, same⟩ := mem_map.mp known
    refine ⟨entry, ?_, same⟩
    rw [split]
    exact mem_append_left _ (mem_of_mem_filter isEarly)

/-- Blocks of one slot have the order of the slots. -/
theorem fillSlots_ordered (order : [(slot, one), (slot, other)].Sublist slots)
    (inside : slot ≤ replaced.length) : [one, other].Sublist (fillSlots slots replaced) := by
  obtain ⟨front, _, filled, -⟩ := fillSlots_split slots inside
  rw [filled]
  refine List.Sublist.trans ?_ ((sublist_append_right front _).trans (sublist_append_left _ _))
  have both := (order.filter (·.1 = slot)).map Prod.snd
  simpa using both

/-- The filled list without the kept blocks. -/
theorem filter_fillSlots {isKept : ReportBlock N → Bool}
    (kept : ∀ slot ∈ slots, isKept slot.2 = true) (new : ∀ block ∈ replaced, isKept block = false) :
    (fillSlots slots replaced).filter (fun block => !isKept block) = replaced := by
  have each : ∀ slot, ((slots.filter (·.1 = slot)).map Prod.snd ++ (replaced[slot]?).toList).filter
      (fun block => !isKept block) = (replaced[slot]?).toList := by
    intro slot
    rw [filter_append]
    have none : ((slots.filter (·.1 = slot)).map Prod.snd).filter
        (fun block => !isKept block) = [] := by
      rw [filter_eq_nil_iff]
      intro block inside
      obtain ⟨entry, known, rfl⟩ := mem_map.mp inside
      simp [kept entry (mem_of_mem_filter known)]
    rw [none, nil_append, filter_eq_self]
    intro block inside
    rw [Option.mem_toList] at inside
    simp [new block (mem_of_getElem? inside)]
  rw [fillSlots, filter_flatMap]
  simp only [each]
  exact flatMap_getElem? replaced

theorem filter_same_id {blocks : List (ReportBlock N)}
    (distinct : (blocks.map ReportBlock.id).Nodup) (known : block ∈ blocks) :
    blocks.filter (fun other => other.id = block.id) = [block] := by
  induction blocks with
  | nil => cases known
  | cons first rest ih =>
    obtain ⟨notLater, distinct⟩ := nodup_cons.mp distinct
    rcases mem_cons.mp known with rfl | later
    · have none : rest.filter (fun other => other.id = block.id) = [] := by
        refine filter_eq_nil_iff.mpr fun other inside same => ?_
        exact notLater (of_decide_eq_true same ▸ mem_map_of_mem inside)
      rw [filter_cons_of_pos (by simp), none]
    · have different : first.id ≠ block.id := fun same =>
        notLater (same ▸ mem_map_of_mem later)
      rw [filter_cons_of_neg (by simpa using different), ih distinct later]

variable (current replaced rewritten) in
theorem slots_inRange : ∀ slot ∈ keptSlots rewritten replaced none false current,
    slot.1 ≤ replaced.length := keptSlots_le nofun

theorem slotAfter_le {before after : List (ReportBlock N)}
    (whole : current = before ++ block :: after) (kept : rewritten block = false) :
    slotAfter replaced (standsAfter rewritten replaced before) ≤ replaced.length := by
  obtain ⟨_, split⟩ := keptSlots_split whole kept
  refine slots_inRange current replaced rewritten (_, block) ?_
  rw [split]
  exact mem_append_right _ mem_cons_self

/-- The block before a slot is the one that its blocks stand after. -/
theorem getLast?_standsAfter {front before : List (ReportBlock N)} (last : front.getLast? =
      if slotAfter replaced (standsAfter rewritten replaced before) = 0 then none
      else replaced[slotAfter replaced (standsAfter rewritten replaced before) - 1]?) :
    front.getLast?.map ReportBlock.id = standsAfter rewritten replaced before := by
  have known : ∀ id, standsAfter rewritten replaced before = some id →
      id ∈ replaced.map ReportBlock.id := by
    intro id stands
    rw [standsAfter] at stands
    split at stands
    next found =>
      have selected := find?_some found
      simp only [Bool.and_eq_true, decide_eq_true_eq] at selected
      exact Option.some.inj stands ▸ selected.2
    next =>
      split at stands
      · obtain ⟨_, isFirst, rfl⟩ := Option.map_eq_some_iff.mp stands
        exact mem_map_of_mem (mem_of_head? isFirst)
      · cases stands
  rw [last]
  cases stands : standsAfter rewritten replaced before with
  | none => rfl
  | some id =>
    obtain ⟨block, inside, same⟩ := mem_map.mp (known id stands)
    have exists_ : ∃ other ∈ replaced, decide (other.id = id) = true :=
      ⟨block, inside, decide_eq_true same⟩
    have small := findIdx_lt_length_of_exists exists_
    have found := findIdx_getElem (w := small)
    rw [slotAfter, if_neg (Nat.succ_ne_zero _), Nat.add_sub_cancel, getElem?_eq_getElem small,
      Option.map_some, of_decide_eq_true found]

variable (current replaced rewritten) in
theorem kept_of_slot : ∀ slot ∈ keptSlots rewritten replaced none false current,
    slot.2 ∈ current ∧ rewritten slot.2 = false := by
  intro slot inside
  have known : slot.2 ∈ current.filter fun block => !rewritten block := by
    rw [← map_snd_keptSlots rewritten replaced none false current]
    exact mem_map_of_mem inside
  simpa using known

/-- **Slots frame the kept blocks.** -/
theorem framed_fillSlots
    (new : ((replaced ++ current.filter fun block => !rewritten block).map ReportBlock.id).Nodup) :
    Framed rewritten current replaced
      (fillSlots (keptSlots rewritten replaced none false current) replaced) := by
  have isKept := kept_of_slot current replaced rewritten
  have perm := fillSlots_perm (slots_inRange current replaced rewritten)
  have keptOnes := map_snd_keptSlots rewritten replaced none false current
  rw [keptOnes] at perm
  have unique := (perm.map ReportBlock.id).nodup_iff.mpr new
  refine ⟨fun block known kept => ?_, ?_, ?_, ?_, unique⟩
  · refine filter_same_id unique (perm.mem_iff.mpr (mem_append_right _ ?_))
    exact mem_filter.mpr ⟨known, by simp [kept]⟩
  · rw [map_append] at new
    have apart := (nodup_append.mp new).2.2
    simp only [decide_not]
    refine filter_fillSlots (fun slot inside => ?_) fun block inside => ?_
    · rw [decide_eq_true_eq, ← keptOnes]
      exact mem_map_of_mem (mem_map_of_mem inside)
    · exact decide_eq_false fun kept => apart _ (mem_map_of_mem inside) _ kept rfl
  · intro before after block whole kept
    have inside : slotAfter replaced (standsAfter rewritten replaced before) ≤ replaced.length :=
      slotAfter_le whole kept
    obtain ⟨_, split⟩ := keptSlots_split whole kept
    obtain ⟨front, gap, rest, filled, last, fromSlots⟩ := fillSlots_placed split inside
    refine ⟨front, gap, rest, filled, getLast?_standsAfter last, fun other known => ?_⟩
    obtain ⟨slot, isSlot, rfl⟩ := fromSlots other known
    exact isKept slot isSlot
  · intro before between after one other whole keptOne keptOther same
    have inside : slotAfter replaced (standsAfter rewritten replaced before) ≤ replaced.length :=
      slotAfter_le (rfl : before ++ one :: between = _) keptOne
    refine fillSlots_ordered ?_ inside
    obtain ⟨_, split⟩ := keptSlots_split whole keptOther
    obtain ⟨_, first⟩ := keptSlots_split (rfl : before ++ one :: between = _) keptOne
    rw [split, first, ← same, append_assoc]
    refine List.Sublist.trans ?_ (sublist_append_right _ _)
    refine List.Sublist.cons_cons _ (List.Sublist.trans ?_ (sublist_append_right _ _))
    exact List.Sublist.cons_cons _ (nil_sublist _)

end Kept

/-! ## Documents -/

section Documents

variable {current replaced : List (ReportBlock N)}

/-- Slots are counted by ids alone. -/
theorem keptSlots_congr (same : replaced.map ReportBlock.id = other.map ReportBlock.id)
    (anchor : Option Nat) (after : Bool) :
    keptSlots rewritten replaced anchor after current =
      keptSlots rewritten other anchor after current := by
  have length : replaced.length = other.length := by simpa using congrArg length same
  have find : ∀ id : Text, replaced.findIdx? (fun block => block.id = id) =
      other.findIdx? fun block => block.id = id := by
    intro id
    have ids := congrArg (findIdx? fun known => decide (known = id)) same
    rwa [findIdx?_map, findIdx?_map] at ids
  induction current generalizing anchor after with
  | nil => rfl
  | cons _ _ ih => simp only [keptSlots, length, find, ih]

variable [JsonReader N]

/-- The filled list as it is stored: kept blocks are stored as they are. -/
theorem map_fillSlots (sound : Sound current) :
    (fillSlots (keptSlots rewritten replaced none false current) replaced).map storedBlock =
      fillSlots (keptSlots rewritten (replaced.map storedBlock) none false current)
        (replaced.map storedBlock) := by
  have kept := kept_of_slot current replaced rewritten
  rw [← keptSlots_congr (ids_storedBlock replaced).symm, fillSlots, fillSlots, map_flatMap,
    length_map]
  refine flatMap_congr fun slot _ => ?_
  rw [map_append, map_map, getElem?_map, Option.toList_map]
  congr 1
  refine map_congr_left fun entry known => ?_
  exact storedBlock_of_storable (sound.storable _ (kept entry (mem_of_mem_filter known)).1)

/-- The blocks of a span that are among the members, in their order. -/
def spanMembers (current : List (ReportBlock N)) (start stop : Nat) (members : List Nat) :
    List (ReportBlock N) :=
  ((range' start (stop - start)).filter (· ∈ members)).filterMap (current[·]?)

/-- The other blocks of a span, in their order. -/
def spanOthers (current : List (ReportBlock N)) (start stop : Nat) (members : List Nat) :
    List (ReportBlock N) :=
  ((range' start (stop - start)).filter (· ∉ members)).filterMap (current[·]?)

variable {doc : ReportDoc}

theorem ReportDoc.Holds.updateWithHintsKeeping (holds : doc.Holds current) (summary : Text)
    (made : reassignIdsWithHintsReserving (current.filter rewritten) slices hints
      ((current.filter fun block => !rewritten block).map ReportBlock.id) = some replaced) :
    ∃ doc' result, doc.updateWithHintsKeeping summary slices hints rewritten = .ok doc' ∧
      doc'.Holds result ∧ Framed rewritten current (replaced.map storedBlock) result := by
  have sound := holds.sound
  have found : alignKeeping current slices hints rewritten =
      .ok (fillSlots (keptSlots rewritten replaced none false current) replaced) := by
    rw [alignKeeping, made]
    rfl
  have keeps := alignKeeping_keeps (sound.fits False) (makes_fits False.elim) found
  have rewrites : ∃ doc', doc.updateWithHintsKeeping summary slices hints rewritten = .ok doc' ∧
      doc'.Holds _ ∧ doc'.summary = summary :=
    (holds.setSummary summary).rewrite_ok found keeps.stored
  obtain ⟨doc', done, held, -⟩ := rewrites
  refine ⟨doc', _, done, held, ?_⟩
  rw [map_fillSlots sound]
  refine framed_fillSlots ?_
  have new := (reassign_aligned made).nodup_append
    (((filter_append_perm rewritten current).map _).nodup_iff.mpr sound.distinct)
  rw [map_append, map_map]
  rw [map_append] at new
  simpa [Function.comp_def] using new

/-- A rewrite that succeeded had its slices reassigned. -/
theorem ReportDoc.Holds.framed_of_ok (holds : doc.Holds current) {summary : Text}
    (done : doc.updateWithHintsKeeping summary slices hints rewritten = .ok doc') :
    ∃ replaced result,
      reassignIdsWithHintsReserving (current.filter rewritten) slices hints
        ((current.filter fun block => !rewritten block).map ReportBlock.id) = some replaced ∧
      doc'.Holds result ∧ Framed rewritten current (replaced.map storedBlock) result := by
  obtain ⟨_, same, rest⟩ := bind_eq_ok.mp done
  cases ((holds.setSummary summary).blocksSnapshot).symm.trans same
  obtain ⟨_, found, -⟩ := bind_eq_ok.mp rest
  obtain ⟨replaced, made, -⟩ := bind_eq_ok.mp found
  have made := orExhausted_eq_ok made
  obtain ⟨_, result, done', held, framed⟩ := holds.updateWithHintsKeeping summary made
  cases done.symm.trans done'
  exact ⟨replaced, result, made, held, framed⟩

omit [JsonReader N] in
theorem mem_of_mem_spanOthers :
    ∀ block ∈ spanOthers current start stop members, block ∈ current := by
  intro block known
  obtain ⟨_, -, found⟩ := mem_filterMap.mp known
  exact mem_of_getElem? found

theorem ReportDoc.Holds.replaceSectionMembers (holds : doc.Holds current) (ordered : start ≤ stop)
    (inRange : stop ≤ current.length) (inside : ∀ index ∈ members, start ≤ index ∧ index < stop)
    (made : reassignIdsWithHintsReserving (spanMembers current start stop members) slices hints
      ((current.take start ++ spanOthers current start stop members ++
        current.drop stop).map ReportBlock.id) = some replaced) :
    ∃ doc', doc.replaceSectionMembers start stop members slices hints = .ok (doc', replaced) ∧
      doc'.Holds (current.take start ++ replaced.map storedBlock ++
        spanOthers current start stop members ++ current.drop stop) ∧
      doc'.summary = doc.summary := by
  have sound := holds.sound
  have found : alignSection current start stop members slices hints =
      .ok (current.take start ++ replaced ++ spanOthers current start stop members ++
        current.drop stop, replaced) := by
    have allInside : (members.all fun index => start ≤ index && index < stop) = true := by
      simpa using inside
    rw [alignSection, if_neg (not_not.mpr ⟨ordered, inRange⟩), if_neg (not_not.mpr allInside)]
    exact bind_eq_ok.mpr ⟨replaced, congrArg orExhausted made, rfl⟩
  have keeps := alignSection_keeps (sound.fits False) (makes_fits False.elim) found
  obtain ⟨doc', applied, held, sameSummary⟩ := holds.applyAligned keeps.stored
  refine ⟨doc', ?_, ?_, sameSummary⟩
  · refine bind_eq_ok.mpr ⟨current, holds.blocksSnapshot, ?_⟩
    refine bind_eq_ok.mpr ⟨_, found, ?_⟩
    exact bind_eq_ok.mpr ⟨doc', applied, rfl⟩
  · simp only [map_append] at held
    rwa [map_storedBlock_part sound fun _ => mem_of_mem_take,
      map_storedBlock_part sound mem_of_mem_spanOthers,
      map_storedBlock_part sound fun _ => mem_of_mem_drop] at held

/-- **A rewrite of a part leaves the rest as it was.** -/
theorem partial_rewrites_frame (doc : ReportDoc) (current : List (ReportBlock N))
    (holds : doc.Holds current) :
    (∀ (summary : Text) (slices : List Text) (hints : List (Option Text))
      (rewritten : ReportBlock N → Bool) (replaced : List (ReportBlock N)),
      reassignIdsWithHintsReserving (current.filter rewritten) slices hints
        ((current.filter fun block => !rewritten block).map ReportBlock.id) = some replaced →
      ∃ doc' result, doc.updateWithHintsKeeping summary slices hints rewritten = .ok doc' ∧
        doc'.Holds result ∧ Framed rewritten current (replaced.map storedBlock) result) ∧
    (∀ (start stop : Nat) (members : List Nat) (slices : List Text) (hints : List (Option Text))
      (replaced : List (ReportBlock N)), start ≤ stop → stop ≤ current.length →
      (∀ index ∈ members, start ≤ index ∧ index < stop) →
      reassignIdsWithHintsReserving (spanMembers current start stop members) slices hints
        ((current.take start ++ spanOthers current start stop members ++
          current.drop stop).map ReportBlock.id) = some replaced →
      ∃ doc', doc.replaceSectionMembers start stop members slices hints = .ok (doc', replaced) ∧
        doc'.Holds (current.take start ++ replaced.map storedBlock ++
          spanOthers current start stop members ++ current.drop stop) ∧
        doc'.summary = doc.summary) :=
  ⟨fun summary _ _ _ _ made => holds.updateWithHintsKeeping summary made,
    fun _ _ _ _ _ _ ordered inRange inside made =>
      holds.replaceSectionMembers ordered inRange inside made⟩

end Documents

/-- Prose rewritten around a data block, and in a section that holds one. -/
theorem partial_rewrites_frame_trial :
    let isProse := fun block : ReportBlock NumberToken => decide (block.kind = kindProse)
    (∃ replaced doc' result,
      reassignIdsWithHintsReserving (trialBlocks.filter isProse) ["# B\n".toList, "# C\n".toList] []
        ((trialBlocks.filter fun block => !isProse block).map ReportBlock.id) = some replaced ∧
      trialDoc.updateWithHintsKeeping [] ["# B\n".toList, "# C\n".toList] [] isProse = .ok doc' ∧
      doc'.Holds result ∧ Framed isProse trialBlocks (replaced.map storedBlock) result) ∧
    ∃ replaced doc',
      reassignIdsWithHintsReserving [trialProse "# A\n".toList] ["# B\n".toList] [] [trialApp.id] =
        some replaced ∧
      trialDoc.replaceSectionMembers 0 2 [0] ["# B\n".toList] [] = .ok (doc', replaced) ∧
      doc'.Holds (replaced.map storedBlock ++ [trialApp]) := by
  intro isProse
  have frame := partial_rewrites_frame trialDoc trialBlocks trialDoc_holds
  constructor
  · obtain ⟨replaced, made⟩ := reassign_of_few (trialBlocks.filter isProse)
      ["# B\n".toList, "# C\n".toList]
      ((trialBlocks.filter fun block => !isProse block).map ReportBlock.id) (by decide) []
    obtain ⟨doc', result, done, held, framed⟩ := frame.1 [] _ [] isProse replaced made
    exact ⟨replaced, doc', result, made, done, held, framed⟩
  · obtain ⟨replaced, made⟩ := reassign_of_few [trialProse "# A\n".toList] ["# B\n".toList]
      [trialApp.id] (by decide) []
    obtain ⟨doc', done, held, -⟩ :=
      frame.2 0 2 [0] _ [] replaced (by decide) (by decide) (by decide) made
    have after : trialBlocks.take 0 ++ replaced.map storedBlock ++ spanOthers trialBlocks 0 2 [0] ++
        trialBlocks.drop 2 = replaced.map storedBlock ++ [trialApp] := append_nil _
    rw [after] at held
    exact ⟨replaced, doc', made, done, held⟩

end NeigeCalm.Report
