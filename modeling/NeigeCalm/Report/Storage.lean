import NeigeCalm.Report.Document

/-!
# Layouts that store a list of blocks

`Represents layout blocks` connects the three places of the layout to one list: the order
is the list of its ids, and the map stores exactly the entries of its blocks.  Such a
layout reads as the list (`Represents.snapshot`, `Represents.flat`), and every edit of it
gives a layout that stores the edited list.
-/

namespace NeigeCalm.Report

open Library List Std OrderedMap Layout

variable {N : Type} [JsonReader N] {layout : Layout}
  {blocks blocks' current aligned : List (ReportBlock N)} {block : ReportBlock N}

/-! ## Layouts and lists -/

/-- The entry that stores a block. -/
def Entry.of (block : ReportBlock N) : Entry := ⟨block.kind, block.rev.toNat, flatText block⟩

/-- Blocks a document can hold: distinct ids, each block storable. -/
structure Sound (blocks : List (ReportBlock N)) : Prop where
  distinct : (blocks.map ReportBlock.id).Nodup
  storable : ∀ block ∈ blocks, Storable block

/-- The map stores exactly the blocks of the list. -/
def Stores (stored : ExtTreeMap Text Entry) (blocks : List (ReportBlock N)) : Prop :=
  ∀ id entry, stored[id]? = some entry ↔ ∃ block ∈ blocks, block.id = id ∧ Entry.of block = entry

structure Represents (layout : Layout) (blocks : List (ReportBlock N)) : Prop where
  order : layout.order = blocks.map ReportBlock.id
  stored : Stores layout.blocks blocks
  sound : Sound blocks

omit [JsonReader N] in
theorem eq_of_id (distinct : (blocks.map ReportBlock.id).Nodup) (known : one ∈ blocks)
    (known' : other ∈ blocks) (same : one.id = other.id) : one = other :=
  inj_on_of_nodup_map distinct known known' same

/-! ## Reads -/

theorem firstDuplicate_eq_none (distinct : ids.Nodup) (unseen : ∀ id ∈ ids, id ∉ seen) :
    firstDuplicate seen ids = none := by
  induction ids generalizing seen with
  | nil => rfl
  | cons id _ ih =>
    obtain ⟨notLater, distinct⟩ := nodup_cons.mp distinct
    rw [firstDuplicate, if_neg (unseen id mem_cons_self)]
    refine ih distinct fun other later => ?_
    rw [mem_cons, not_or]
    exact ⟨fun same => notLater (same ▸ later), unseen other (mem_cons_of_mem _ later)⟩

theorem nodup_of_firstDuplicate (none : firstDuplicate seen ids = none) :
    ids.Nodup ∧ ∀ id ∈ ids, id ∉ seen := by
  induction ids generalizing seen with
  | nil => exact ⟨nodup_nil, nofun⟩
  | cons id _ ih =>
    rw [firstDuplicate] at none
    split at none
    · cases none
    next unseen =>
      obtain ⟨distinct, others⟩ := ih none
      refine ⟨nodup_cons.mpr ⟨fun later => others id later mem_cons_self, distinct⟩,
        fun other inside => ?_⟩
      rcases mem_cons.mp inside with rfl | later
      · exact unseen
      · exact fun old => others other later (mem_cons_of_mem _ old)

/-- The text of a storable block is read as the block. -/
theorem readBlock_of_entry (found : layout.blocks[block.id]? = some (Entry.of block))
    (storable : Storable block) : layout.readBlock block.id = .ok block := by
  have small : (Entry.of block).rev < UInt32.size := block.rev.toNat_lt_size
  have sameRev : UInt32.ofNat (Entry.of block).rev = block.rev := UInt32.ofNat_toNat
  rw [readBlock, found]
  dsimp only
  rw [if_pos small, sameRev]
  obtain ⟨id, kind, rev, payload⟩ := block
  cases storable with
  | prose _ isProse only =>
    dsimp only at isProse only
    subst isProse only
    rfl
  | data isData validKind validPayload =>
    have read := parseFence_renderFence validKind validPayload
    have text : flatText ⟨id, kind, rev, payload⟩ = renderFence kind payload := if_neg isData
    simp only [Entry.of, text, read]
    rw [if_neg isData, if_pos trivial]

/-- Data that is read back nests within the reader's limit. -/
theorem validPayload_of_readBlock {other : ReportBlock N}
    (found : layout.blocks[block.id]? = some (Entry.of block))
    (isData : block.kind ≠ kindProse) (valid : Json.Valid depth block.payload)
    (done : layout.readBlock block.id = .ok other) : ValidPayload block.payload := by
  rw [readBlock, found] at done
  dsimp only [Entry.of] at done
  rw [if_pos block.rev.toNat_lt_size, if_neg isData, flatText, if_neg isData] at done
  split at done
  · cases done
  next read =>
    split at done
    next same => exact (payload_of_rendered valid read same).2.2
    next => cases done

omit [JsonReader N] in
theorem mapM_ids {read : Text → Except DocError (ReportBlock N)}
    (each : ∀ block ∈ blocks, read block.id = .ok block) :
    (blocks.map ReportBlock.id).mapM read = .ok blocks := by
  induction blocks with
  | nil => rfl
  | cons block _ ih =>
    rw [map_cons, mapM_cons, each block mem_cons_self,
      ih fun other later => each other (mem_cons_of_mem _ later)]
    rfl

section

variable (rep : Represents layout blocks)

include rep

theorem Represents.found (known : block ∈ blocks) :
    layout.blocks[block.id]? = some (Entry.of block) :=
  (rep.stored _ _).mpr ⟨block, known, rfl, rfl⟩

theorem Represents.mem_iff (id : Text) : id ∈ layout.blocks ↔ id ∈ blocks.map ReportBlock.id := by
  rw [ExtTreeMap.mem_iff_isSome_getElem?, Option.isSome_iff_exists, mem_map]
  constructor
  · rintro ⟨entry, found⟩
    obtain ⟨block, known, same, -⟩ := (rep.stored id entry).mp found
    exact ⟨block, known, same⟩
  · rintro ⟨_, known, rfl⟩
    exact ⟨_, rep.found known⟩

/-- **The snapshot of a layout is the list it represents.** -/
theorem Represents.snapshot : layout.snapshot = .ok blocks := by
  have size : layout.blocks.size = layout.order.length := by
    rw [rep.order]
    exact size_eq_length rep.sound.distinct rep.mem_iff
  rw [Layout.snapshot, rep.order, firstDuplicate_eq_none rep.sound.distinct (by simp), ← rep.order,
    if_pos size, rep.order]
  exact mapM_ids fun block known =>
    readBlock_of_entry (rep.found known) (rep.sound.storable block known)

/-- **The flat text of a layout is that of the list.** -/
theorem Represents.flat : layout.flat = .ok (flatBlocksText blocks) := by
  have found : ∀ block ∈ blocks, layout.blocks[block.id]? = some (Entry.of block) :=
    fun block known => rep.found known
  rw [Layout.flat, rep.order, flatBlocksText]
  generalize [] = body
  clear rep
  induction blocks generalizing body with
  | nil => rfl
  | cons block _ ih =>
    rw [map_cons, foldlM_cons, found block mem_cons_self, foldl_cons]
    exact ih (fun other later => found other (mem_cons_of_mem _ later)) _

end

/-! ## One block -/

/-- The payload of content of a kind. -/
def payloadOf (kind content : Text) : Json N :=
  if kind = kindProse then prosePayload content
  else match (parseFence (N := N) content) with
    | some fence => fence.payload
    | none => .null

/-- A block with new content: the next revision exactly when kind or text changed. -/
def replaced (block : ReportBlock N) (kind content : Text) : ReportBlock N :=
  if block.kind = kind ∧ flatText block = content then block
  else { id := block.id, kind, rev := nextRev block.rev, payload := payloadOf kind content }

/-- Content that a block can be given: prose, or a data fence as it is rendered. -/
inductive Content (N : Type) [JsonReader N] (kind content : Text) : Prop
  | prose (isProse : kind = kindProse)
  | data (isData : kind ≠ kindProse) (payload : Json N) (depth : Nat)
    (valid : Json.Valid depth payload) (rendered : content = renderFence kind payload)

/-- Content that passes its check is stored as it is read. -/
theorem content_storable (given : Content N kind content)
    (checked : checkContent N kind content = .ok ()) (id : Text) (rev : UInt32) :
    Storable (⟨id, kind, rev, payloadOf kind content⟩ : ReportBlock N) ∧
      flatText (⟨id, kind, rev, payloadOf kind content⟩ : ReportBlock N) = content := by
  cases given with
  | prose isProse =>
    have payload : (payloadOf kind content : Json N) = prosePayload content := if_pos isProse
    rw [payload]
    exact ⟨.prose content isProse rfl, if_pos isProse⟩
  | data isData payload _ valid rendered =>
    subst rendered
    rw [checkContent, if_neg isData] at checked
    split at checked
    · cases checked
    next read =>
      split at checked
      next same =>
        obtain ⟨rfl, validKind, validPayload⟩ := payload_of_rendered valid read same
        have isPayload : (payloadOf kind (renderFence kind payload) : Json N) = payload := by
          rw [payloadOf, if_neg isData, read]
        rw [isPayload]
        exact ⟨.data isData validKind validPayload, if_neg isData⟩
      next => cases checked

theorem Stores.insert (stores : Stores stored blocks)
    (distinct : (blocks'.map ReportBlock.id).Nodup) (known : block ∈ blocks')
    (others : ∀ other, other.id ≠ block.id → (other ∈ blocks ↔ other ∈ blocks')) :
    Stores (stored.insert block.id (Entry.of block)) blocks' := by
  intro id entry
  rw [get_insert]
  split
  next same =>
    subst same
    constructor
    · intro here
      exact ⟨block, known, rfl, Option.some.inj here⟩
    · rintro ⟨other, known', same, rfl⟩
      rw [eq_of_id distinct known' known same]
  next different =>
    rw [stores id entry]
    refine exists_congr fun other => and_congr_left fun facts => others other ?_
    rw [facts.1]
    exact different

theorem Stores.erase (stores : Stores stored blocks) {id : Text}
    (gone : ∀ other ∈ blocks', other.id ≠ id)
    (others : ∀ other, other.id ≠ id → (other ∈ blocks ↔ other ∈ blocks')) :
    Stores (stored.erase id) blocks' := by
  intro key entry
  rw [get_erase]
  split
  next same =>
    subst same
    refine ⟨nofun, ?_⟩
    rintro ⟨other, known, same, -⟩
    exact absurd same (gone other known)
  next different =>
    rw [stores key entry]
    refine exists_congr fun other => and_congr_left fun facts => others other ?_
    rw [facts.1]
    exact different

/-- One block replaced by another of its id. -/
theorem Represents.insert {before after : List (ReportBlock N)}
    (rep : Represents layout (before ++ block :: after)) (other : ReportBlock N)
    (same : other.id = block.id) (storable : Storable other) :
    Represents (layout.insertBlockEntry block.id other.kind other.rev (flatText other))
      (before ++ other :: after) := by
  have ids : (before ++ other :: after).map ReportBlock.id =
      (before ++ block :: after).map ReportBlock.id := by simp [same]
  have distinct : ((before ++ other :: after).map ReportBlock.id).Nodup := ids ▸ rep.sound.distinct
  refine ⟨rep.order.trans ids.symm, ?_, distinct, fun one known => ?_⟩
  · have stored : Stores (layout.blocks.insert other.id (Entry.of other))
        (before ++ other :: after) :=
      rep.stored.insert distinct (by simp) fun one different => by
        have notOther : one ≠ other := fun equal => different (equal ▸ rfl)
        have notBlock : one ≠ block := fun equal => different (equal ▸ same.symm)
        simp [notOther, notBlock]
    rw [same] at stored
    exact stored
  · rcases mem_append.mp known with early | late
    · exact rep.sound.storable one (mem_append_left _ early)
    · rcases mem_cons.mp late with rfl | later
      · exact storable
      · exact rep.sound.storable one (mem_append_right _ (mem_cons_of_mem _ later))

/-- A successful replacement. -/
theorem Represents.replaceBlock (rep : Represents layout blocks) {id kind content : Text}
    (given : Content N kind content) (checked : Layout.checkContent N kind content = .ok ())
    (done : layout.replaceBlock id kind content = .ok (layout', same, rev)) :
    ∃ before block after, blocks = before ++ block :: after ∧ block.id = id ∧
      Represents layout' (before ++ replaced block kind content :: after) := by
  rw [Layout.replaceBlock] at done
  split at done
  · cases done
  next entry found =>
    obtain ⟨block, known, sameId, rfl⟩ := (rep.stored id entry).mp found
    obtain ⟨before, after, rfl⟩ := append_of_mem known
    refine ⟨before, block, after, rfl, sameId, ?_⟩
    have sameRev : UInt32.ofNat (Entry.of block).rev = block.rev := UInt32.ofNat_toNat
    split at done
    · dsimp only at done
      rw [sameRev] at done
      split at done
      next unchanged =>
        cases done
        have unchanged : block.kind = kind ∧ flatText block = content := unchanged
        rwa [replaced, if_pos unchanged]
      next changed =>
        have changed : ¬ (block.kind = kind ∧ flatText block = content) := changed
        cases done
        obtain ⟨storable, text⟩ := content_storable given checked block.id (nextRev block.rev)
        have inserted := rep.insert ⟨block.id, kind, nextRev block.rev, payloadOf kind content⟩ rfl
          storable
        rw [text] at inserted
        rw [replaced, if_neg changed, ← sameId]
        exact inserted
    · cases done

theorem insertIdx_at_length {α : Type} (before after : List α) (a : α) :
    (before ++ after).insertIdx before.length a = before ++ a :: after := by
  induction before with
  | nil => rfl
  | cons _ _ ih => simp [ih]

/-- A layout with a block written at its end. -/
def Layout.push (layout : Layout) (block : ReportBlock N) : Layout :=
  { layout.insertBlockEntry block.id block.kind block.rev (flatText block) with
    order := layout.order.insertIdx layout.order.length block.id }

omit [JsonReader N] in
theorem nodup_push (distinct : (blocks.map ReportBlock.id).Nodup)
    (unused : block.id ∉ blocks.map ReportBlock.id) :
    ((blocks ++ [block]).map ReportBlock.id).Nodup := by
  rw [map_append, nodup_append]
  refine ⟨distinct, nodup_singleton _, ?_⟩
  rintro one known _ single rfl
  have isNew : one = block.id := mem_singleton.mp single
  exact unused (isNew ▸ known)

theorem Represents.push (rep : Represents layout blocks)
    (unused : block.id ∉ blocks.map ReportBlock.id) (storable : Storable block) :
    Represents (layout.push block) (blocks ++ [block]) := by
  have distinct := nodup_push rep.sound.distinct unused
  refine ⟨?_, ?_, distinct, fun one known => ?_⟩
  · have atEnd := insertIdx_at_length (blocks.map ReportBlock.id) [] block.id
    rw [append_nil] at atEnd
    rw [Layout.push, rep.order, atEnd, map_append]
    rfl
  · exact rep.stored.insert distinct (mem_append_right _ (mem_singleton_self _))
      fun one different => by
        have notNew : one ≠ block := fun equal => different (equal ▸ rfl)
        simp [notNew]
  · rcases mem_append.mp known with old | new
    · exact rep.sound.storable one old
    · exact mem_singleton.mp new ▸ storable

theorem represents_empty : Represents ⟨∅, []⟩ ([] : List (ReportBlock N)) :=
  ⟨rfl, by simp [Stores], nodup_nil, nofun⟩

/-- A successful append. -/
theorem Represents.appendBlock (rep : Represents layout blocks) {kind content id : Text}
    (given : Content N kind content) (checked : Layout.checkContent N kind content = .ok ())
    (done : layout.appendBlock kind content = .ok (layout', id, rev)) :
    id ∉ blocks.map ReportBlock.id ∧
      Represents layout' (blocks ++ [⟨id, kind, 1, payloadOf kind content⟩]) := by
  obtain ⟨storable, text⟩ := content_storable given checked id 1
  rw [Layout.appendBlock] at done
  cases minted : mintId content layout.order.length layout.blocks.keys with
  | none => rw [minted] at done; cases done
  | some fresh =>
    rw [minted] at done
    obtain ⟨rfl, result⟩ := Prod.mk.inj (Except.ok.inj done)
    obtain ⟨rfl, -⟩ := Prod.mk.inj result
    have unused : fresh ∉ blocks.map ReportBlock.id := fun used =>
      mintId_fresh minted (ExtTreeMap.mem_keys.mpr ((rep.mem_iff fresh).mpr used))
    have pushed := rep.push unused storable
    rw [Layout.push, text] at pushed
    exact ⟨unused, pushed⟩

omit [JsonReader N] in
/-- The position of an id in the order splits the list at its block. -/
theorem split_at {id : Text} (found : (blocks.map ReportBlock.id).findIdx? (· = id) = some index) :
    ∃ before block after, blocks = before ++ block :: after ∧ before.length = index ∧
      block.id = id := by
  obtain ⟨inside, same, -⟩ := findIdx?_eq_some_iff_getElem.mp found
  have inside : index < blocks.length := by simpa using inside
  refine ⟨blocks.take index, blocks[index], blocks.drop (index + 1), ?_, by simp; omega, ?_⟩
  · rw [cons_getElem_drop_succ, take_append_drop]
  · simpa using same

/-- The same blocks in another order. -/
theorem Represents.reorder (rep : Represents layout blocks) (perm : blocks.Perm blocks') :
    Represents { layout with order := blocks'.map ReportBlock.id } blocks' := by
  refine ⟨rfl, fun id entry => ?_, (perm.map _).nodup_iff.mp rep.sound.distinct,
    fun block known => ?_⟩
  · rw [rep.stored id entry]
    exact exists_congr fun block => and_congr_left fun _ => perm.mem_iff
  · exact rep.sound.storable block (perm.mem_iff.mpr known)

/-- A successful move. -/
theorem Represents.moveBlock (rep : Represents layout blocks) {id : Text}
    (done : layout.moveBlock id toIndex = .ok layout') :
    ∃ before block after, blocks = before ++ block :: after ∧ block.id = id ∧
      toIndex < blocks.length ∧ Represents layout' ((before ++ after).insertIdx toIndex block) := by
  rw [Layout.moveBlock] at done
  split at done
  · cases done
  next index found =>
    rw [rep.order] at found
    obtain ⟨before, block, after, rfl, length, same⟩ := split_at found
    refine ⟨before, block, after, rfl, same, ?_⟩
    split at done
    next inRange =>
      rw [rep.order, length_map] at inRange
      refine ⟨inRange, ?_⟩
      -- both branches leave the order of the moved list
      have moved : ((before ++ after).insertIdx toIndex block).map ReportBlock.id =
          (((before ++ block :: after).map ReportBlock.id).eraseIdx index).insertIdx
            toIndex id := by
        rw [← same, ← length]
        simp [map_insertIdx, eraseIdx_append_of_length_le]
      have perm : (before ++ block :: after).Perm ((before ++ after).insertIdx toIndex block) :=
        perm_middle.trans (perm_insertIdx _ _ (by
          rw [length_append, length_cons] at inRange
          rw [length_append]
          omega)).symm
      have result := rep.reorder perm
      rw [moved] at result
      split at done
      next still =>
        cases done
        have sameOrder : layout.order =
            (((before ++ block :: after).map ReportBlock.id).eraseIdx index).insertIdx
              toIndex id := by
          rw [← moved, ← still, ← length, rep.order, insertIdx_at_length]
        rwa [← sameOrder] at result
      next =>
        cases done
        rw [rep.order]
        exact result
    next => cases done

/-- A successful deletion. -/
theorem Represents.deleteBlock (rep : Represents layout blocks) {id : Text}
    (done : layout.deleteBlock id = .ok layout') :
    ∃ before block after, blocks = before ++ block :: after ∧ block.id = id ∧
      Represents layout' (before ++ after) := by
  rw [Layout.deleteBlock] at done
  split at done
  · cases done
  next found =>
    rw [rep.order] at found
    obtain ⟨before, block, after, rfl, length, same⟩ := split_at found
    refine ⟨before, block, after, rfl, same, ?_⟩
    cases done
    have distinct := rep.sound.distinct
    rw [map_append, map_cons, nodup_middle, nodup_cons, ← map_append] at distinct
    refine ⟨?_, rep.stored.erase (fun other known => ?_) fun other different => ?_, distinct.2,
      fun other known => ?_⟩
    · rw [rep.order]
      simp [← length, eraseIdx_append_of_length_le]
    · rintro rfl
      exact distinct.1 (same ▸ mem_map_of_mem known)
    · have : other ≠ block := fun equal => different (equal ▸ same)
      simp [this]
    · refine rep.sound.storable other ?_
      rcases mem_append.mp known with early | late
      · exact mem_append_left _ early
      · exact mem_append_right _ (mem_cons_of_mem _ late)

/-! ## Aligned lists -/

omit [JsonReader N] in
/-- Entries whose block does not survive are gone, the others are left alone. -/
theorem get_remaining (keep : List Text) (current : List (ReportBlock N))
    (stored : ExtTreeMap Text Entry) (id : Text) :
    (current.foldl (fun (blocks : ExtTreeMap Text Entry) old =>
      if old.id ∈ keep then blocks else blocks.erase old.id) stored)[id]? =
      if id ∉ keep ∧ id ∈ current.map ReportBlock.id then none else stored[id]? := by
  induction current generalizing stored with
  | nil => simp
  | cons old _ ih =>
    rw [foldl_cons, ih]
    by_cases kept : old.id ∈ keep
    · rw [if_pos kept]
      by_cases here : id = old.id
      · simp [here, kept]
      · simp [here]
    · rw [if_neg kept, get_erase]
      by_cases here : id = old.id
      · simp [here, kept]
      · simp [here]

/-- An edited entry is the entry of the aligned block. -/
theorem applyBlock_eq
    (survives : ∀ old ∈ current, old.id = block.id → stored[block.id]? = some (Entry.of old)) :
    applyBlock current stored block = .ok (stored.insert block.id (Entry.of block)) := by
  unfold applyBlock
  split
  next old found =>
    have same : old.id = block.id := by simpa using find?_some found
    rw [survives old (mem_of_find?_eq_some found) same]
    have edited : ∀ {α : Type} [DecidableEq α] (a b : α), (if a ≠ b then b else a) = b :=
      fun a b => by by_cases equal : a = b <;> simp [equal]
    have rev : (if old.rev ≠ block.rev then block.rev.toNat else old.rev.toNat) =
        block.rev.toNat := by by_cases equal : old.rev = block.rev <;> simp [equal]
    simp only [Entry.of, edited, rev]
  next => rfl

theorem foldlM_applyBlock (distinct : (aligned.map ReportBlock.id).Nodup)
    (survives : ∀ block ∈ aligned, ∀ old ∈ current, old.id = block.id →
      stored[block.id]? = some (Entry.of old)) :
    ∃ result, aligned.foldlM (applyBlock current) stored = .ok result ∧
      ∀ id entry, result[id]? = some entry ↔
        (∃ block ∈ aligned, block.id = id ∧ Entry.of block = entry) ∨
          (id ∉ aligned.map ReportBlock.id ∧ stored[id]? = some entry) := by
  induction aligned generalizing stored with
  | nil => exact ⟨stored, rfl, by simp⟩
  | cons block rest ih =>
    obtain ⟨notLater, distinct⟩ := nodup_cons.mp distinct
    have here := applyBlock_eq (survives block mem_cons_self)
    have others : ∀ other ∈ rest, ∀ old ∈ current, old.id = other.id →
        (stored.insert block.id (Entry.of block))[other.id]? = some (Entry.of old) := by
      intro other later old known same
      have different : other.id ≠ block.id := fun equal =>
        notLater (equal ▸ mem_map_of_mem later)
      rw [get_insert, if_neg different]
      exact survives other (mem_cons_of_mem _ later) old known same
    obtain ⟨result, folded, lookups⟩ := ih distinct others
    refine ⟨result, by rw [foldlM_cons, here]; exact folded, fun id entry => ?_⟩
    rw [lookups id entry, get_insert, map_cons, mem_cons, not_or]
    constructor
    · rintro (⟨other, later, facts⟩ | ⟨notRest, stored⟩)
      · exact .inl ⟨other, mem_cons_of_mem _ later, facts⟩
      · split at stored
        next same => exact .inl ⟨block, mem_cons_self, same.symm, Option.some.inj stored⟩
        next different => exact .inr ⟨⟨different, notRest⟩, stored⟩
    · rintro (⟨other, inside, same, isEntry⟩ | ⟨⟨different, notRest⟩, stored⟩)
      · rcases mem_cons.mp inside with rfl | later
        · exact .inr ⟨same ▸ notLater, by rw [if_pos same.symm, isEntry]⟩
        · exact .inl ⟨other, later, same, isEntry⟩
      · exact .inr ⟨notRest, by rwa [if_neg different]⟩

/-- **An aligned list put in place is represented.** -/
theorem Represents.applyAligned (rep : Represents layout current) (sound : Sound aligned) :
    ∃ layout', layout.applyAlignedBlocks current aligned = .ok layout' ∧
      Represents layout' aligned := by
  have remaining := get_remaining (aligned.map ReportBlock.id) current layout.blocks
  unfold applyAlignedBlocks
  dsimp only
  generalize current.foldl (fun (blocks : ExtTreeMap Text Entry) old =>
    if old.id ∈ aligned.map ReportBlock.id then blocks else blocks.erase old.id) layout.blocks =
    stored at *
  have survives : ∀ block ∈ aligned, ∀ old ∈ current, old.id = block.id →
      stored[block.id]? = some (Entry.of old) := by
    intro block known old knownOld same
    have kept : block.id ∈ aligned.map ReportBlock.id := mem_map_of_mem known
    rw [remaining, if_neg fun gone => gone.1 kept, ← same]
    exact rep.found knownOld
  obtain ⟨_, folded, lookups⟩ := foldlM_applyBlock sound.distinct survives
  refine ⟨_, by rw [folded]; rfl, ?_, fun id entry => ?_, sound⟩
  · split
    next same => exact same
    next => rfl
  · -- an id that is not aligned is not stored
    have gone : id ∉ aligned.map ReportBlock.id → stored[id]? ≠ some entry := by
      intro notAligned found
      rw [remaining] at found
      split at found
      · cases found
      next other =>
        obtain ⟨_, known, same, -⟩ := (rep.stored id entry).mp found
        exact other ⟨notAligned, same ▸ mem_map_of_mem known⟩
    rw [lookups id entry]
    exact or_iff_left fun ⟨notAligned, found⟩ => gone notAligned found

/-! ## Layouts written from a list -/

omit [JsonReader N] in
theorem unused_of_nodup (distinct : ((before ++ block :: rest).map ReportBlock.id).Nodup) :
    block.id ∉ before.map ReportBlock.id := by
  rw [map_append, map_cons, nodup_append] at distinct
  exact fun inside => distinct.2.2 _ inside _ mem_cons_self rfl

theorem writeBlocks_represents (rep : Represents layout blocks) (sound : Sound (blocks ++ rest))
    (written : ∀ id ∈ seen, id ∈ blocks.map ReportBlock.id) :
    ∃ layout', writeBlocks blocks.length rest used seen layout = .ok layout' ∧
      Represents layout' (blocks ++ rest) := by
  induction rest generalizing blocks seen layout with
  | nil => exact ⟨layout, rfl, by rwa [append_nil]⟩
  | cons block _ ih =>
    have unused := unused_of_nodup sound.distinct
    have storable := sound.storable block (mem_append_right _ mem_cons_self)
    have pushed := rep.push unused storable
    rw [append_cons] at sound ⊢
    have writtenHere : ∀ id ∈ block.id :: seen, id ∈ (blocks ++ [block]).map ReportBlock.id := by
      intro id inside
      rw [map_append]
      rcases mem_cons.mp inside with rfl | old
      · exact mem_append_right _ (mem_singleton_self _)
      · exact mem_append_left _ (written id old)
    obtain ⟨layout', made, represents⟩ := ih pushed sound writtenHere
    refine ⟨layout', ?_, represents⟩
    have length : layout.order.length = blocks.length := by rw [rep.order, length_map]
    rw [length_append, length_singleton, push, length] at made
    rw [writeBlocks, if_pos fun inside => unused (written _ inside)]
    exact made

/-- **Sound blocks are written as they are.** -/
theorem writeBlocksLayout_represents (sound : Sound blocks) :
    ∃ layout, writeBlocksLayout blocks = .ok layout ∧ Represents layout blocks :=
  writeBlocks_represents represents_empty sound nofun

/-- A block as the document stores it: prose keeps only its markdown. -/
def storedBlock (block : ReportBlock N) : ReportBlock N :=
  if block.kind = kindProse then { block with payload := prosePayload (flatText block) } else block

@[simp] theorem storedBlock_id : (storedBlock block).id = block.id := by
  unfold storedBlock; split <;> rfl

@[simp] theorem storedBlock_kind (block : ReportBlock N) :
    (storedBlock block).kind = block.kind := by
  unfold storedBlock; split <;> rfl

@[simp] theorem storedBlock_rev : (storedBlock block).rev = block.rev := by
  unfold storedBlock; split <;> rfl

@[simp] theorem storedBlock_flatText (block : ReportBlock N) :
    flatText (storedBlock block) = flatText block := by
  unfold storedBlock
  split
  next isProse => exact if_pos isProse
  next => rfl

/-- What can be stored is stored as it is. -/
theorem storedBlock_of_storable (storable : Storable block) : storedBlock block = block := by
  unfold storedBlock
  split
  next isProse =>
    cases storable with
    | prose markdown _ only =>
      have text : flatText block = markdown := by
        rw [flatText, if_pos isProse, only]
        rfl
      rw [text, ← only]
    | data isData => exact absurd isProse isData
  next => rfl

theorem map_storedBlock_part (sound : Sound blocks) {part : List (ReportBlock N)}
    (known : ∀ block ∈ part, block ∈ blocks) : part.map storedBlock = part := by
  have same : part.map storedBlock = part.map id := map_congr_left fun block inside =>
    storedBlock_of_storable (sound.storable block (known block inside))
  rw [same, map_id]

theorem map_storedBlock (sound : Sound blocks) : blocks.map storedBlock = blocks :=
  map_storedBlock_part sound fun _ => id

theorem ids_storedBlock (blocks : List (ReportBlock N)) :
    (blocks.map storedBlock).map ReportBlock.id = blocks.map ReportBlock.id := by
  simp [Function.comp_def]

/-- Only the text of a prose block is written. -/
theorem writeBlocks_storedBlock :
    writeBlocks index (blocks.map storedBlock) used seen layout =
      writeBlocks index blocks used seen layout := by
  induction blocks generalizing index used seen layout with
  | nil => rfl
  | cons _ _ ih =>
    simp only [map_cons, writeBlocks, ih, storedBlock_id, storedBlock_kind,
      storedBlock_rev, storedBlock_flatText]

theorem writeBlocksLayout_stored (sound : Sound (blocks.map storedBlock)) :
    ∃ layout, writeBlocksLayout blocks = .ok layout ∧
      Represents layout (blocks.map storedBlock) := by
  obtain ⟨layout, written, represents⟩ := writeBlocksLayout_represents sound
  refine ⟨layout, ?_, represents⟩
  rw [← written, writeBlocksLayout, writeBlocksLayout, writeBlocks_storedBlock, ids_storedBlock]

theorem Represents.applyAligned_stored (rep : Represents layout current)
    (sound : Sound (aligned.map storedBlock)) :
    ∃ layout', layout.applyAlignedBlocks current aligned = .ok layout' ∧
      Represents layout' (aligned.map storedBlock) := by
  obtain ⟨layout', applied, represents⟩ := rep.applyAligned sound
  refine ⟨layout', ?_, represents⟩
  have block : (fun stored block => applyBlock current stored (storedBlock block)) =
      applyBlock current := by
    funext stored block
    simp only [applyBlock, storedBlock_id, storedBlock_kind, storedBlock_rev, storedBlock_flatText]
  rw [← applied, applyAlignedBlocks, applyAlignedBlocks, ids_storedBlock, foldlM_map, block]

theorem writeExact_push (rep : Represents layout start)
    (sound : Sound (start ++ blocks.map storedBlock)) :
    Represents ((blocks.zipIdx start.length).foldl (fun layout (block, index) =>
      let layout := layout.insertBlockEntry block.id block.kind block.rev (flatText block)
      { layout with order := layout.order.insertIdx index block.id }) layout)
      (start ++ blocks.map storedBlock) := by
  induction blocks generalizing start layout with
  | nil => rwa [map_nil, append_nil]
  | cons _ _ ih =>
    rw [map_cons] at sound ⊢
    have storable := sound.storable _ (mem_append_right _ mem_cons_self)
    have pushed := rep.push (unused_of_nodup sound.distinct) storable
    rw [append_cons] at sound ⊢
    have length : layout.order.length = start.length := by rw [rep.order, length_map]
    have later := ih pushed sound
    rw [length_append, length_singleton, push, length] at later
    simpa [insertBlockEntry] using later

theorem writeExact_represents (sound : Sound (blocks.map storedBlock)) :
    Represents (writeExact blocks) (blocks.map storedBlock) :=
  writeExact_push represents_empty sound

end NeigeCalm.Report
