import NeigeCalm.Report.Align

/-!
# Which blocks keep their identity

A rewrite binds slices to old blocks.  Hints bind first, and nothing binds such a slice again:
the later passes only look at slices that are still without a block (`assignments_bound`).
`identity_reuse_exact` says what comes out, for every list of old blocks and every list of
slices: one block for each slice, distinct ids, revisions that tell whether the text changed.
-/

namespace NeigeCalm.Report

open Library List

variable {N : Type}

section Bound

variable {old : List (ReportBlock N)} {slices : List Text} {hints : List (Option Text)}
  {pass : Pass} {oldStart oldEnd newStart newEnd index : Nat}

/-! ## Slices that are bound stay bound -/

/-- The slice at `index` is not to be matched. -/
def Pass.Settled (pass : Pass) (index : Nat) : Prop := pass.newText.getD index none = none

theorem getD_foldl_set {texts : List (Option Text)} (pairs : List (Nat × Nat))
    (settled : texts.getD index none = none) :
    (pairs.foldl (fun texts pair => texts.set pair.2 none) texts).getD index none = none := by
  induction pairs generalizing texts with
  | nil => exact settled
  | cons _ _ ih =>
    refine ih ?_
    rw [getD_eq_getElem?_getD, getElem?_set]
    split
    · split <;> rfl
    · rwa [← getD_eq_getElem?_getD]

theorem not_mem_of_settled {texts : List (Option Text)} {pairs : List (Nat × Nat)}
    (settled : texts.getD index none = none)
    (eligible : ∀ pair ∈ pairs, (texts.getD pair.2 none).isSome = true) :
    index ∉ pairs.map Prod.snd := by
  intro named
  obtain ⟨pair, inside, rfl⟩ := mem_map.mp named
  have isSome := eligible pair inside
  rw [settled] at isSome
  cases isSome

/-- A gap leaves a settled slice as it is. -/
theorem Pass.Settled.fillGap [JsonReader N] (settled : pass.Settled index)
    (old : List (ReportBlock N)) (slices : List Text) (oldStart newStart : Nat)
    (anchor : Nat × Nat) :
    (fillGap old slices pass oldStart newStart anchor).Settled index ∧
      (fillGap old slices pass oldStart newStart anchor).slots[index]? = pass.slots[index]? := by
  have kinds : (sameKindPairs old slices pass oldStart anchor.1 newStart anchor.2).Settled index :=
    getD_foldl_set _ settled
  have slots : (sameKindPairs old slices pass oldStart anchor.1 newStart anchor.2).slots[index]? =
      pass.slots[index]? :=
    Slots.getElem?_assignAll_other
      (not_mem_of_settled settled fun pair inside => (mem_kindPairs inside).2.2)
  unfold Report.fillGap
  generalize sameKindPairs old slices pass oldStart anchor.1 newStart anchor.2 = pass' at *
  refine ⟨kinds, ?_⟩
  rw [← slots]
  refine Slots.getElem?_assignAll_other (not_mem_of_settled kinds fun pair inside => ?_)
  obtain ⟨_, same, isSome⟩ := (mem_bestPairs inside).2
  rw [same]
  exact (open_of_gap isSome).2

theorem Pass.Settled.fillGaps [JsonReader N] (settled : pass.Settled index)
    (anchors : List (Nat × Nat)) :
    (fillGaps old slices pass oldStart newStart anchors).slots[index]? = pass.slots[index]? := by
  induction anchors generalizing pass oldStart newStart with
  | nil => rfl
  | cons anchor _ ih =>
    obtain ⟨still, same⟩ := settled.fillGap old slices oldStart newStart anchor
    exact (ih still).trans same

/-- What hints bind, the other passes leave. -/
theorem assignments_bound [JsonReader N] {oldIndex : Nat}
    (bound : (bindHints old slices hints).1[index]? = some (some oldIndex)) :
    (assignments old slices hints)[index]? = some (some oldIndex) := by
  unfold assignments
  generalize bindHints old slices hints = hinted at *
  obtain ⟨slots, taken⟩ := hinted
  dsimp only at bound ⊢
  have settled : (newTexts N slots slices).getD index none = none := by
    rw [getD_eq_getElem?_getD, newTexts, getElem?_map, getElem?_zipIdx]
    cases slices[index]? with
    | none => rfl
    | some =>
      have held : slots.getD index none ≠ none := by
        rw [getD_eq_getElem?_getD, bound]
        exact Option.some_ne_none _
      simp only [Option.map_some, Option.getD_some, Nat.zero_add, if_neg held]
  have pass : Pass.Settled
      { slots := slots.assignAll (lcsMatches (oldTexts old taken) (newTexts N slots slices))
        oldText := oldTexts old taken
        newText := newTexts N slots slices } index := settled
  refine (pass.fillGaps _).trans ?_
  rw [← bound]
  exact Slots.getElem?_assignAll_other
    (not_mem_of_settled settled fun pair inside => (isSome_of_sameEntry (mem_lcsWalk inside).2.2).2)

/-! ## Hints -/

/-- The hint at a position, with the hints before it and after it. -/
theorem split_hints (here : hints[index]? = some hint) (inside : index < slices.length) :
    ∃ before after, hints.zipIdx.take slices.length = before ++ (hint, index) :: after ∧
      (∀ earlier ∈ before, earlier.2 < index ∧ hints[earlier.2]? = some earlier.1) ∧
      ∀ later ∈ after, later.2 ≠ index := by
  have length : index < (hints.zipIdx.take slices.length).length := by
    have known := (List.getElem?_eq_some_iff.mp here).1
    simp only [length_take, length_zipIdx]
    omega
  have entry : ∀ (place : Nat) (bound : place < (hints.zipIdx.take slices.length).length),
      ((hints.zipIdx.take slices.length).get ⟨place, bound⟩).2 = place ∧
        hints[place]? = some ((hints.zipIdx.take slices.length).get ⟨place, bound⟩).1 := by
    intro place bound
    have shorter : place < hints.length := by
      simp only [length_take, length_zipIdx] at bound
      omega
    simp [getElem?_eq_getElem shorter]
  refine ⟨(hints.zipIdx.take slices.length).take index,
    (hints.zipIdx.take slices.length).drop (index + 1), ?_, fun earlier known => ?_,
    fun later known => ?_⟩
  · have whole := take_append_drop index (hints.zipIdx.take slices.length)
    rw [drop_eq_getElem_cons length] at whole
    obtain ⟨place, same⟩ := entry index length
    rw [here] at same
    have pair : (hints.zipIdx.take slices.length)[index] = (hint, index) :=
      Prod.ext (Option.some.inj same).symm place
    rw [pair] at whole
    exact whole.symm
  · obtain ⟨place, bound, rfl⟩ := mem_iff_getElem.mp known
    have small : place < index := by
      simp only [length_take] at bound
      omega
    have inList : place < (hints.zipIdx.take slices.length).length := by omega
    obtain ⟨position, same⟩ := entry place inList
    simp only [get_eq_getElem] at position same
    rw [getElem_take, position]
    exact ⟨small, same⟩
  · obtain ⟨place, bound, rfl⟩ := mem_iff_getElem.mp known
    have inList : index + 1 + place < (hints.zipIdx.take slices.length).length := by
      simp only [length_drop] at bound
      omega
    obtain ⟨position, -⟩ := entry _ inList
    simp only [get_eq_getElem] at position
    rw [getElem_drop, position]
    omega

/-- Hints take only blocks that they name. -/
theorem mem_taken {pairs : List (Option Text × Nat)}
    (inside : taken ∈ (pairs.foldl (bindHint old) bound).2) :
    taken ∈ bound.2 ∨ ∃ pair ∈ pairs, pair.1.bind (indexById old) = some taken := by
  induction pairs generalizing bound with
  | nil => exact .inl inside
  | cons pair _ ih =>
    rcases ih inside with before | ⟨later, known, named⟩
    · unfold bindHint at before
      split at before
      next found =>
        split at before
        · exact .inl before
        · rcases mem_cons.mp before with rfl | before
          · exact .inr ⟨pair, mem_cons_self, found⟩
          · exact .inl before
      next => exact .inl before
    · exact .inr ⟨later, mem_cons_of_mem _ known, named⟩

theorem slots_foldl_bindHint {pairs : List (Option Text × Nat)}
    (other : ∀ pair ∈ pairs, pair.2 ≠ index) :
    (pairs.foldl (bindHint old) bound).1[index]? = bound.1[index]? := by
  induction pairs generalizing bound with
  | nil => rfl
  | cons _ _ ih =>
    obtain ⟨here, other⟩ := forall_mem_cons.mp other
    refine (ih other).trans ?_
    unfold bindHint
    split
    · split
      · rfl
      · rw [Slots.assign, getElem?_set_ne here]
    · rfl

variable (old) in
theorem length_foldl_bindHint (pairs : List (Option Text × Nat)) (bound : Slots × List Nat) :
    (pairs.foldl (bindHint old) bound).1.length = bound.1.length := by
  induction pairs generalizing bound with
  | nil => rfl
  | cons _ _ ih =>
    refine (ih _).trans ?_
    unfold bindHint
    split
    · split
      · rfl
      · exact length_set
    · rfl

theorem length_assignAll (pairs : List (Nat × Nat)) (slots : Slots) :
    (slots.assignAll pairs).length = slots.length := by
  induction pairs generalizing slots with
  | nil => rfl
  | cons pair _ ih => exact (ih _).trans length_set

theorem length_assignments [JsonReader N] (old : List (ReportBlock N)) (slices : List Text)
    (hints : List (Option Text)) : (assignments old slices hints).length = slices.length := by
  have gaps : ∀ (anchors : List (Nat × Nat)) (pass : Pass) (oldStart newStart : Nat),
      (fillGaps old slices pass oldStart newStart anchors).slots.length = pass.slots.length := by
    intro anchors
    induction anchors with
    | nil => exact fun _ _ _ => rfl
    | cons _ _ ih =>
      intro pass oldStart newStart
      exact (ih _ _ _).trans ((length_assignAll _ _).trans (length_assignAll _ _))
  have hinted := length_foldl_bindHint old (hints.zipIdx.take slices.length)
    (replicate slices.length none, [])
  exact (gaps _ _ _ _).trans ((length_assignAll _ _).trans (hinted.trans length_replicate))

theorem id_of_indexById {id : Text} (found : indexById old id = some oldIndex) :
    ∃ block, old[oldIndex]? = some block ∧ block.id = id := by
  obtain ⟨inside, same, -⟩ := findIdx?_eq_some_iff_getElem.mp found
  exact ⟨old[oldIndex], getElem?_eq_getElem inside, of_decide_eq_true same⟩

/-- **The first slice that hints a block is bound to it.** -/
theorem bindHints_first {id : Text} (hinted : hints[index]? = some (some id))
    (inside : index < slices.length) (first : ∀ earlier < index, hints[earlier]? ≠ some (some id))
    (found : indexById old id = some oldIndex) :
    (bindHints old slices hints).1[index]? = some (some oldIndex) := by
  obtain ⟨before, _, split, earlier, later⟩ := split_hints hinted inside
  rw [bindHints, split, foldl_append, foldl_cons, slots_foldl_bindHint later]
  have length := length_foldl_bindHint old before (replicate slices.length none, [])
  have free : oldIndex ∉
      (before.foldl (bindHint old) (replicate slices.length none, [])).2 := by
    intro taken
    rcases mem_taken taken with none | ⟨pair, known, named⟩
    · cases none
    · obtain ⟨small, same⟩ := earlier pair known
      obtain ⟨_, isOther, named⟩ := Option.bind_eq_some_iff.mp named
      obtain ⟨_, atOld, hasId⟩ := id_of_indexById found
      obtain ⟨_, atOld', hasId'⟩ := id_of_indexById named
      cases atOld.symm.trans atOld'
      rw [isOther, ← hasId', hasId] at same
      exact first pair.2 small same
  generalize before.foldl (bindHint old) (replicate slices.length none, []) = bound at *
  simp only [length_replicate] at length
  simp only [bindHint, Option.bind_some, found, if_neg free, Slots.assign]
  rw [getElem?_set_self (by omega)]

/-! ## The block of each slice -/

variable [JsonReader N]

/-- What the block of a slice is, by what its slot holds. -/
structure Made (old : List (ReportBlock N)) (used : List Text) (slot : Option Nat) (slice : Text)
    (block : ReportBlock N) : Prop where
  continued : ∀ oldIndex, slot = some oldIndex → ∃ from_, old[oldIndex]? = some from_ ∧
    block = blockOf slice from_.id (continuedRev from_ slice)
  fresh : slot = none → ∃ id, id ∉ used ∧ block = blockOf slice id 1

theorem newBlocks_made (made : newBlocks old slots start slices used = some blocks) :
    blocks.length = slices.length ∧
      ∀ (place : Nat) (slice : Text) (block : ReportBlock N), slices[place]? = some slice →
        blocks[place]? = some block →
          Made old used (slots.getD (start + place) none) slice block := by
  induction slices generalizing start used blocks with
  | nil =>
    cases made
    exact ⟨rfl, fun place slice block here => by cases here⟩
  | cons slice rest ih =>
    rw [newBlocks] at made
    -- the first slice is made here, the others from one further on
    have assemble : ∀ {first : ReportBlock N} {others : List (ReportBlock N)} {used' : List Text},
        (∀ id ∈ used, id ∈ used') → newBlocks old slots (start + 1) rest used' = some others →
        Made old used (slots.getD start none) slice first →
        (first :: others).length = (slice :: rest).length ∧
          ∀ (place : Nat) (other : Text) (block : ReportBlock N),
            (slice :: rest)[place]? = some other → (first :: others)[place]? = some block →
            Made old used (slots.getD (start + place) none) other block := by
      intro first others used' more found firstMade
      obtain ⟨length, each⟩ := ih found
      refine ⟨by rw [length_cons, length_cons, length], fun place other block here there => ?_⟩
      cases place with
      | zero =>
        cases here
        cases there
        exact firstMade
      | succ place =>
        rw [getElem?_cons_succ] at here there
        have later := each place other block here there
        rw [Nat.add_assoc, Nat.add_comm 1] at later
        refine ⟨later.continued, fun none => ?_⟩
        obtain ⟨id, unused, same⟩ := later.fresh none
        exact ⟨id, fun known => unused (more id known), same⟩
    cases slot : slots.getD start none with
    | some =>
      simp only [slot, Option.bind_eq_bind, Option.bind_eq_some_iff, Option.pure_def,
        Option.some.injEq] at made
      obtain ⟨block, atOld, _, found, rfl⟩ := made
      refine assemble (fun _ known => known) found ?_
      rw [slot]
      refine ⟨fun index same => ?_, fun absent => by cases absent⟩
      cases same
      exact ⟨block, atOld, rfl⟩
    | none =>
      simp only [slot, Option.bind_eq_bind, Option.bind_eq_some_iff, Option.pure_def,
        Option.some.injEq] at made
      obtain ⟨id, minted, _, found, rfl⟩ := made
      refine assemble (fun _ known => mem_cons_of_mem _ known) found ?_
      rw [slot]
      exact ⟨fun _ held => (by cases held), fun _ => ⟨id, mintId_fresh minted, rfl⟩⟩

/-! ## What a rewrite keeps -/

/-- The ids that a rewrite deals with: the old ones, the reserved ones, and one for each slice
that continues no block. -/
def idsInPlay (old : List (ReportBlock N)) (slices : List Text) (hints : List (Option Text))
    (reserved : List Text) : Nat :=
  (old.map ReportBlock.id ++ reserved).toFinset.card +
    unbound (assignments old slices hints) 0 slices

/-- Slice `place` is the first to be hinted to the id. -/
def FirstHint (slices : List Text) (hints : List (Option Text)) (id : Text) (place : Nat) : Prop :=
  place < slices.length ∧ hints[place]? = some (some id) ∧
    ∀ earlier < place, hints[earlier]? ≠ some (some id)

/-- What a rewrite gives, where `binding` says which old block each slice continues. -/
structure Reassignment (old : List (ReportBlock N)) (slices : List Text)
    (hints : List (Option Text)) (reserved : List Text) (binding : Slots)
    (blocks : List (ReportBlock N)) : Prop where
  length : blocks.length = slices.length
  bound : binding.length = slices.length
  content : ∀ (place : Nat) (slice : Text) (block : ReportBlock N), slices[place]? = some slice →
    blocks[place]? = some block →
    (block.kind, block.payload) = match parseFence slice with
      | some fence => (fence.kind, fence.payload)
      | none => (kindProse, prosePayload slice)
  distinct : (blocks.map ReportBlock.id).Nodup
  unreserved : ∀ block ∈ blocks, block.id ∉ reserved
  once : binding.OneToOne
  hinted : ∀ (id : Text) (oldIndex place : Nat), indexById old id = some oldIndex →
    FirstHint slices hints id place → binding[place]? = some (some oldIndex)
  continued : ∀ (place oldIndex : Nat) (slice : Text) (block : ReportBlock N),
    slices[place]? = some slice → blocks[place]? = some block →
    binding[place]? = some (some oldIndex) →
    ∃ from_, old[oldIndex]? = some from_ ∧ block.id = from_.id ∧
      block.rev =
        if comparableFlat from_ = some (canonical (N := N) slice) then from_.rev
        else nextRev from_.rev
  fresh : ∀ (place : Nat) (block : ReportBlock N), blocks[place]? = some block →
    binding[place]? = some none → block.id ∉ old.map ReportBlock.id ∧ block.rev = 1
  kept : (old.map ReportBlock.id).Nodup → (∀ hint ∈ hints, hint = none) →
    slices.map (fun slice => some (canonical (N := N) slice)) = old.map comparableFlat →
    blocks.map (fun block => (block.id, block.rev)) = old.map fun block => (block.id, block.rev)

theorem blockOf_content (slice id : Text) (rev : UInt32) :
    ((blockOf (N := N) slice id rev).kind, (blockOf (N := N) slice id rev).payload) =
      match parseFence slice with
      | some fence => (fence.kind, fence.payload)
      | none => (kindProse, prosePayload slice) := by
  unfold blockOf
  cases (parseFence (N := N) slice) <;> rfl

/-- Texts that stay as they are keep their ids and revisions. -/
theorem ids_kept (made : newBlocks old (assignments old slices hints) 0 slices used = some blocks)
    (distinct : (old.map ReportBlock.id).Nodup) (unhinted : ∀ hint ∈ hints, hint = none)
    (same : slices.map (fun slice => some (canonical (N := N) slice)) = old.map comparableFlat) :
    blocks.map (fun block => (block.id, block.rev)) =
      old.map fun block => (block.id, block.rev) := by
  obtain ⟨_, each⟩ := newBlocks_made made
  simp only [Nat.zero_add] at each
  have count : slices.length = old.length := by simpa using congrArg List.length same
  refine ext_getElem? fun place => ?_
  rw [getElem?_map, getElem?_map]
  by_cases inside : place < old.length
  · have here : slices[place]? = some slices[place] := getElem?_eq_getElem _
    have there : blocks[place]? = some blocks[place] := getElem?_eq_getElem _
    obtain ⟨from_, atOld, made⟩ := (each place _ _ here there).continued place
      (assignments_same distinct unhinted same inside)
    have unchanged : comparableFlat from_ = some (canonical (N := N) slices[place]) := by
      have both := congrArg (fun texts => texts[place]?) same
      simp only [getElem?_map, here, atOld, Option.map_some] at both
      exact (Option.some.inj both).symm
    rw [there, atOld, made]
    simp only [Option.map_some, blockOf_id, blockOf_rev, continuedRev, if_pos unchanged]
  · rw [getElem?_eq_none (by omega), getElem?_eq_none (by omega)]

/-- **Ids are reused once each, and revisions count the changes of text.** -/
theorem identity_reuse_exact (old : List (ReportBlock N)) (slices : List Text)
    (hints : List (Option Text)) (reserved : List Text) (apart : ∀ block ∈ old, block.id ∉ reserved)
    (room : idsInPlay old slices hints reserved < 65536) :
    ∃ blocks, reassignIdsWithHintsReserving old slices hints reserved = some blocks ∧
      Reassignment old slices hints reserved (assignments old slices hints) blocks := by
  obtain ⟨once, held⟩ := assignments_oneToOne old slices hints
  obtain ⟨blocks, made⟩ := Option.isSome_iff_exists.mp (newBlocks_isSome held room.le)
  have aligned := reassign_aligned made
  obtain ⟨length, each⟩ := newBlocks_made made
  simp only [Nat.zero_add] at each
  have slot : ∀ {place : Nat} {held : Option Nat},
      (assignments old slices hints)[place]? = some held →
      (assignments old slices hints).getD place none = held := fun here => by
    rw [getD_eq_getElem?_getD, here, Option.getD_some]
  have sliceOf : ∀ {place : Nat} {block : ReportBlock N}, blocks[place]? = some block →
      ∃ slice, slices[place]? = some slice := fun here => by
    obtain ⟨inside, -⟩ := List.getElem?_eq_some_iff.mp here
    exact ⟨slices[_], getElem?_eq_getElem (length ▸ inside)⟩
  have origin : ∀ {place : Nat} {slice : Text} {block : ReportBlock N},
      slices[place]? = some slice → blocks[place]? = some block →
      ∃ id rev, block = blockOf slice id rev ∧ id ∉ reserved := by
    intro place slice block here there
    have one := each place slice block here there
    cases bound : (assignments old slices hints).getD place none with
    | some oldIndex =>
      obtain ⟨from_, atOld, same⟩ := one.continued oldIndex bound
      exact ⟨_, _, same, apart from_ (mem_of_getElem? atOld)⟩
    | none =>
      obtain ⟨id, unused, same⟩ := one.fresh bound
      exact ⟨id, 1, same, fun known => unused (mem_append_right _ known)⟩
  refine ⟨blocks, made, length, length_assignments .., ?_, aligned.distinct, ?_, once, ?_, ?_, ?_,
    ?_⟩
  · intro place slice block here there
    obtain ⟨id, rev, rfl, -⟩ := origin here there
    exact blockOf_content slice id rev
  · intro block known
    obtain ⟨place, there⟩ := getElem?_of_mem known
    obtain ⟨slice, here⟩ := sliceOf there
    obtain ⟨_, _, rfl, _⟩ := origin here there
    rwa [blockOf_id]
  · rintro _ oldIndex place found ⟨inside, hinted, first⟩
    exact assignments_bound (bindHints_first hinted inside first found)
  · intro place oldIndex slice block here there bound
    obtain ⟨from_, atOld, rfl⟩ := (each place slice block here there).continued oldIndex
      (slot bound)
    exact ⟨from_, atOld, blockOf_id .., blockOf_rev ..⟩
  · intro place block there bound
    obtain ⟨slice, here⟩ := sliceOf there
    obtain ⟨_, unused, rfl⟩ := (each place slice block here there).fresh (slot bound)
    rw [blockOf_id]
    exact ⟨fun known => unused (mem_append_left _ known), blockOf_rev ..⟩
  · exact ids_kept made

end Bound

/-- A heading kept under its id in front of a new one, where one id is reserved. -/
theorem identity_reuse_exact_heading :
    let old : List (ReportBlock NumberToken) :=
      [⟨"b_0001".toList, kindProse, 4, prosePayload "# A\n".toList⟩]
    let slices := ["# B\n".toList, "# A\n".toList]
    let hints := [none, some "b_0001".toList]
    idsInPlay old slices hints ["b_0002".toList] < 65536 ∧
      ∃ blocks, reassignIdsWithHintsReserving old slices hints ["b_0002".toList] = some blocks ∧
        Reassignment old slices hints ["b_0002".toList] (assignments old slices hints) blocks := by
  intro old slices hints
  have room : idsInPlay old slices hints ["b_0002".toList] < 65536 := by
    have few := unbound_le (assignments old slices hints) 0 slices
    have ids : (old.map ReportBlock.id ++ ["b_0002".toList]).toFinset.card ≤ 2 := toFinset_card_le _
    have count : slices.length = 2 := rfl
    rw [idsInPlay]
    omega
  refine ⟨room, identity_reuse_exact old slices hints _ (fun block known => ?_) room⟩
  obtain rfl := mem_singleton.mp known
  decide

end NeigeCalm.Report
