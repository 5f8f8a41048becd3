import NeigeCalm.Library.Fallible
import NeigeCalm.Report.Storage

/-!
# The document refines a list of blocks

What each operation should do is said on lists of blocks (`ListStep`): a rewrite gives the
aligned list, an upsert replaces one block or appends a fresh one, a move puts one block
at its index, a deletion takes one out.  `document_refines` is the simulation: along any
run of successful operations the document reads as a list with distinct ids, its body is
the flat text of that list, and every operation takes the list to what `ListStep` says.
-/

namespace NeigeCalm.Report

open Library List Fallible

variable {N : Type} [JsonReader N]

/-! ## Aligned lists are sound -/

/-- No slice is a fence of the kind of prose. -/
def NoProseFence (N : Type) [JsonReader N] (slices : List Text) : Prop :=
  ∀ slice ∈ slices, ∀ fence : NonProseFence N, parseFence slice = some fence →
    fence.kind ≠ kindProse

section Rewrites

variable {current replaced : List (ReportBlock N)}
  {block : ReportBlock N} {P : ReportBlock N → Prop}

theorem blockOf_storable
    (noProse : ∀ fence : NonProseFence N, parseFence slice = some fence → fence.kind ≠ kindProse)
    (id : Text) (rev : UInt32) : Storable (blockOf (N := N) slice id rev) := by
  unfold blockOf
  split
  next fence read =>
    obtain ⟨validKind, validPayload⟩ := parseFence_valid read
    exact .data (noProse fence read) validKind validPayload
  next => exact .prose slice rfl rfl

theorem Origin.eq_blockOf (origin : Origin old reserved slice block) :
    block = blockOf slice block.id block.rev := by
  cases origin with
  | continued _ _ same | fresh _ _ same => rw [same, blockOf_id, blockOf_rev]

theorem Origin.id_mem (origin : Origin old reserved slice block) :
    block.id ∈ old.map ReportBlock.id ∨ block.id ∉ reserved := by
  cases origin with
  | continued _ known same =>
    rw [same, blockOf_id]
    exact .inl (mem_map_of_mem known)
  | fresh _ unused same =>
    rw [same, blockOf_id]
    exact .inr fun inside => unused (mem_append_right _ inside)

theorem Aligned.exists_slice (aligned : Aligned old reserved slices blocks)
    (known : block ∈ blocks) :
    ∃ slice ∈ slices, Origin old reserved slice block := by
  obtain ⟨each, -⟩ := aligned
  induction each with
  | nil => cases known
  | @cons slice _ _ _ origin _ ih =>
    rcases mem_cons.mp known with rfl | later
    · exact ⟨slice, mem_cons_self, origin⟩
    · obtain ⟨slice, inside, origin⟩ := ih later
      exact ⟨slice, mem_cons_of_mem _ inside, origin⟩

/-- Every block made of a slice that is stored has the form of a stored block. -/
theorem storedBlock_blockOf (slice id : Text) (rev : UInt32) :
    Storable (storedBlock (blockOf (N := N) slice id rev)) := by
  by_cases isProse : (blockOf (N := N) slice id rev).kind = kindProse
  · refine .prose (flatText (blockOf (N := N) slice id rev)) ?_ ?_
    · rw [storedBlock_kind, isProse]
    · rw [storedBlock, if_pos isProse]
  · rw [storedBlock, if_neg isProse]
    unfold blockOf at isProse ⊢
    split at isProse
    next read =>
      obtain ⟨validKind, validPayload⟩ := parseFence_valid read
      exact .data isProse validKind validPayload
    next => exact absurd rfl isProse

/-- Distinct blocks that all have a property. -/
structure Keeps (P : ReportBlock N → Prop) (blocks : List (ReportBlock N)) : Prop where
  distinct : (blocks.map ReportBlock.id).Nodup
  each : ∀ block ∈ blocks, P block

/-- Every block made of one of the slices has the property. -/
def Makes (P : ReportBlock N → Prop) (slices : List Text) : Prop :=
  ∀ slice ∈ slices, ∀ id rev, P (blockOf slice id rev)

theorem Aligned.keeps (aligned : Aligned old reserved slices blocks) (makes : Makes P slices) :
    Keeps P blocks := by
  refine ⟨aligned.distinct, fun block known => ?_⟩
  obtain ⟨slice, inside, origin⟩ := aligned.exists_slice known
  rw [origin.eq_blockOf]
  exact makes slice inside _ _

/-- A part that was realigned has none of the ids of the rest. -/
theorem Aligned.nodup_append (aligned : Aligned old (others.map ReportBlock.id) slices replaced)
    (distinct : ((old ++ others).map ReportBlock.id).Nodup) :
    ((replaced ++ others).map ReportBlock.id).Nodup := by
  rw [map_append, List.nodup_append] at distinct ⊢
  refine ⟨aligned.distinct, distinct.2.1, ?_⟩
  intro id isReplaced other isOther same
  subst same
  obtain ⟨_, known, rfl⟩ := mem_map.mp isReplaced
  obtain ⟨_, -, origin⟩ := aligned.exists_slice known
  rcases origin.id_mem with isOld | unused
  · exact distinct.2.2 _ isOld _ isOther rfl
  · exact unused isOther

/-! ## Kept blocks -/

section

omit [JsonReader N]

theorem map_snd_keptSlots (rewritten : ReportBlock N → Bool) (replaced : List (ReportBlock N))
    (anchor : Option Nat) (after : Bool) (current : List (ReportBlock N)) :
    (keptSlots rewritten replaced anchor after current).map Prod.snd =
      current.filter fun block => !rewritten block := by
  induction current generalizing anchor after with
  | nil => rfl
  | cons _ _ ih =>
    rw [keptSlots]
    split
    next yes => simp [yes, ih]
    next no => simp [no, ih]

theorem keptSlots_le {rewritten : ReportBlock N → Bool} {after : Bool}
    (inside : ∀ index, anchor = some index → index < replaced.length) :
    ∀ slot ∈ keptSlots rewritten replaced anchor after current, slot.1 ≤ replaced.length := by
  induction current generalizing anchor after with
  | nil => nofun
  | cons _ _ ih =>
    rw [keptSlots]
    split
    · refine ih fun index found => ?_
      rcases Option.or_eq_some_iff.mp found with here | ⟨-, earlier⟩
      · exact (findIdx?_eq_some_iff_getElem.mp here).1
      · exact inside index earlier
    · intro slot known
      rcases mem_cons.mp known with rfl | later
      · cases anchor with
        | none => cases after <;> simp only [keptSlot] <;> omega
        | some index => exact inside index rfl
      · exact ih inside slot later

theorem flatMap_single {β : Type} {indices : List Nat} (distinct : indices.Nodup)
    (inside : at_ ∈ indices) (value : β) :
    (indices.flatMap fun index => if at_ = index then [value] else []) = [value] := by
  induction indices with
  | nil => cases inside
  | cons first rest ih =>
    obtain ⟨notLater, distinct⟩ := nodup_cons.mp distinct
    rw [flatMap_cons]
    rcases mem_cons.mp inside with rfl | later
    · have none : (rest.flatMap fun index => if at_ = index then [value] else []) = [] := by
        rw [flatMap_eq_nil_iff]
        exact fun index known => if_neg fun (same : at_ = index) => notLater (same ▸ known)
      rw [if_pos rfl, none]
      rfl
    · rw [if_neg fun (same : at_ = first) => notLater (same ▸ later), ih distinct later]
      rfl

/-- Slots in range lose and repeat no kept block. -/
theorem flatMap_slots {slots : List (Nat × ReportBlock N)} {count : Nat}
    (inRange : ∀ slot ∈ slots, slot.1 < count) :
    ((range count).flatMap fun index => (slots.filter (·.1 = index)).map Prod.snd).Perm
      (slots.map Prod.snd) := by
  induction slots with
  | nil => simp
  | cons slot rest ih =>
    have shape : (fun index => ((slot :: rest).filter (·.1 = index)).map Prod.snd) =
        fun index => (if slot.1 = index then [slot.2] else []) ++
          (rest.filter (·.1 = index)).map Prod.snd := by
      funext index
      by_cases here : slot.1 = index <;> simp [here]
    rw [shape]
    refine (flatMap_append_perm _ _ _).symm.trans ?_
    rw [flatMap_single nodup_range (mem_range.mpr (inRange slot mem_cons_self))]
    exact (ih fun other later => inRange other (mem_cons_of_mem _ later)).cons slot.2

theorem flatMap_getElem? {β : Type} (items : List β) :
    ((range (items.length + 1)).flatMap fun index => (items[index]?).toList) = items := by
  induction items with
  | nil => rfl
  | cons _ _ ih =>
    rw [length_cons, range_succ_eq_map, flatMap_cons, flatMap_map]
    simpa using ih

theorem fillSlots_perm {slots : List (Nat × ReportBlock N)}
    (inRange : ∀ slot ∈ slots, slot.1 ≤ replaced.length) :
    (fillSlots slots replaced).Perm (replaced ++ slots.map Prod.snd) := by
  refine (flatMap_append_perm _ _ _).symm.trans ?_
  rw [flatMap_getElem?]
  exact ((flatMap_slots fun slot known =>
    Nat.lt_succ_of_le (inRange slot known)).append_right _).trans perm_append_comm

theorem orExhausted_eq_ok {α : Type} {result : Option α} {value : α}
    (done : orExhausted result = .ok value) : result = some value := by
  cases result with
  | none => cases done
  | some => rw [Except.ok.inj done]

theorem Keeps.perm (keeps : Keeps P blocks) (perm : blocks.Perm blocks') : Keeps P blocks' :=
  ⟨(perm.map _).nodup_iff.mp keeps.distinct,
    fun block known => keeps.each block (perm.mem_iff.mpr known)⟩

theorem filterMap_getElem?_range' (current : List (ReportBlock N)) (start count : Nat)
    (inRange : start + count ≤ current.length) :
    (range' start count).filterMap (current[·]?) = (current.drop start).take count := by
  induction count generalizing start with
  | zero => simp
  | succ _ ih =>
    have here : start < current.length := by omega
    rw [range'_succ, filterMap_cons_some (getElem?_eq_getElem here),
      ih (start + 1) (by omega), drop_eq_getElem_cons here, take_succ_cons]

/-- The members of a span, and the rest of the list. -/
theorem span_perm (members : List Nat) (ordered : start ≤ stop) (inRange : stop ≤ current.length) :
    (((range' start (stop - start)).filter (· ∈ members)).filterMap (current[·]?) ++
      (current.take start ++
        ((range' start (stop - start)).filter (· ∉ members)).filterMap (current[·]?) ++
        current.drop stop)).Perm current := by
  have parts : (((range' start (stop - start)).filter (· ∈ members)).filterMap (current[·]?) ++
      ((range' start (stop - start)).filter (· ∉ members)).filterMap (current[·]?)).Perm
      ((current.drop start).take (stop - start)) := by
    rw [← filterMap_append, ← filterMap_getElem?_range' current start (stop - start) (by omega)]
    refine List.Perm.filterMap _ ?_
    simpa using filter_append_perm (· ∈ members) (range' start (stop - start))
  have whole : current.take start ++ ((current.drop start).take (stop - start) ++
      current.drop stop) = current := by
    have rest : (current.drop start).take (stop - start) ++ current.drop stop =
        current.drop start := by
      rw [show current.drop stop = (current.drop start).drop (stop - start) by
        rw [drop_drop, Nat.add_sub_cancel' ordered], take_append_drop]
    rw [rest, take_append_drop]
  generalize ((range' start (stop - start)).filter (· ∈ members)).filterMap (current[·]?) = old at *
  generalize ((range' start (stop - start)).filter (· ∉ members)).filterMap (current[·]?) =
    kept at *
  rw [append_assoc]
  refine (perm_append_comm_assoc _ _ _).trans ?_
  rw [← append_assoc old]
  exact ((parts.append_right _).append_left _).trans (List.Perm.of_eq whole)

end

/-- A part realigned next to the rest of a list. -/
theorem Keeps.realigned (keeps : Keeps P current) (split : (old ++ others).Perm current)
    (aligned : Aligned old (others.map ReportBlock.id) slices replaced)
    (makes : Makes P slices) : Keeps P (replaced ++ others) := by
  refine ⟨aligned.nodup_append ((split.map _).nodup_iff.mpr keeps.distinct), fun block known => ?_⟩
  rcases mem_append.mp known with new | kept
  · exact (aligned.keeps makes).each block new
  · exact keeps.each block (split.mem_iff.mp (mem_append_right _ kept))

theorem alignBody_keeps {body : Text} (makes : Makes P (splitBody N body))
    (done : alignBody current body = .ok blocks) : Keeps P blocks :=
  (reassign_aligned (orExhausted_eq_ok done)).keeps makes

theorem alignHints_keeps {hints : List (Option Text)} (makes : Makes P slices)
    (done : alignHints current slices hints = .ok blocks) : Keeps P blocks :=
  (reassign_aligned (orExhausted_eq_ok done)).keeps makes

theorem alignDropping_keeps {body : Text} (makes : Makes P (splitBody N body))
    (done : alignDropping current body = .ok blocks) : Keeps P blocks :=
  (reassign_aligned (orExhausted_eq_ok done)).keeps makes

theorem alignKeeping_keeps {hints : List (Option Text)} {rewritten : ReportBlock N → Bool}
    (keeps : Keeps P current) (makes : Makes P slices)
    (done : alignKeeping current slices hints rewritten = .ok blocks) : Keeps P blocks := by
  rw [alignKeeping] at done
  cases made : reassignIdsWithHintsReserving (current.filter rewritten) slices hints
      ((current.filter fun block => !rewritten block).map ReportBlock.id) with
  | none => simp only [made, orExhausted] at done; cases done
  | some replaced =>
    simp only [made, orExhausted] at done
    cases done
    have realigned := keeps.realigned (filter_append_perm rewritten current)
      (reassign_aligned made) makes
    refine realigned.perm (List.Perm.symm ?_)
    rw [← map_snd_keptSlots rewritten replaced none false current]
    exact fillSlots_perm (keptSlots_le nofun)

theorem alignSection_keeps (keeps : Keeps P current) (makes : Makes P slices)
    (done : alignSection current start stop members slices hints = .ok (blocks, replaced)) :
    Keeps P blocks := by
  rw [alignSection] at done
  split at done
  · cases done
  next inside =>
    obtain ⟨ordered, inRange⟩ := not_not.mp inside
    split at done
    · cases done
    · have split := span_perm members ordered inRange
      dsimp only at done
      generalize ((range' start (stop - start)).filter (· ∈ members)).filterMap
        (current[·]?) = old at done split
      generalize ((range' start (stop - start)).filter (· ∉ members)).filterMap
        (current[·]?) = kept at done split
      cases made : reassignIdsWithHintsReserving old slices hints
          ((current.take start ++ kept ++ current.drop stop).map ReportBlock.id) with
      | none => simp only [made, orExhausted] at done; cases done
      | some found =>
        simp only [made, orExhausted] at done
        cases done
        refine (keeps.realigned split (reassign_aligned made) makes).perm ?_
        simp only [append_assoc]
        exact perm_append_comm_assoc _ _ _

end Rewrites

/-! ## Operations -/

inductive Op (N : Type) where
  | update (summary body : Text)
  | updateWithHints (summary : Text) (slices : List Text) (hints : List (Option Text))
  | updateWithHintsKeeping (summary : Text) (slices : List Text) (hints : List (Option Text))
    (rewritten : ReportBlock N → Bool)
  | replaceDroppingDataBlocks (summary body : Text)
  | replaceSectionMembers (start stop : Nat) (members : List Nat) (slices : List Text)
    (hints : List (Option Text))
  | upsertBlock (id : Option Text) (kind content : Text)
  | moveBlock (id : Text) (toIndex : Nat)
  | deleteBlock (id : Text)

namespace Op

def run (doc : ReportDoc) : Op N → Except DocError ReportDoc
  | update summary body => doc.update N summary body
  | updateWithHints summary slices hints => doc.updateWithHints N summary slices hints
  | updateWithHintsKeeping summary slices hints rewritten =>
    doc.updateWithHintsKeeping summary slices hints rewritten
  | replaceDroppingDataBlocks summary body => doc.replaceDroppingDataBlocks N summary body
  | replaceSectionMembers start stop members slices hints =>
    (doc.replaceSectionMembers (N := N) start stop members slices hints).map Prod.fst
  | upsertBlock id kind content => (doc.upsertBlock N id kind content).map Prod.fst
  | moveBlock id toIndex => doc.moveBlock id toIndex
  | deleteBlock id => doc.deleteBlock id

/-- Data content is given as it is rendered. -/
def Rendered : Op N → Prop
  | upsertBlock _ kind content => Content N kind content
  | _ => True

/-- What callers give: no fence of the kind of prose, and data content as it is rendered. -/
def Allowed : Op N → Prop
  | update _ body | replaceDroppingDataBlocks _ body => NoProseFence N (splitBody N body)
  | updateWithHints _ slices _ | updateWithHintsKeeping _ slices _ _ => NoProseFence N slices
  | replaceSectionMembers _ _ _ slices _ => NoProseFence N slices
  | upsertBlock _ kind content => Content N kind content
  | moveBlock .. | deleteBlock .. => True

end Op

/-- What an operation does to the list of blocks. -/
inductive ListStep : List (ReportBlock N) → Op N → List (ReportBlock N) → Prop
  | update {blocks blocks' : List (ReportBlock N)} {summary body : Text}
    (aligned : alignBody blocks body = .ok blocks') :
    ListStep blocks (.update summary body) blocks'
  | updateWithHints {blocks blocks' : List (ReportBlock N)} {summary : Text} {slices : List Text}
    {hints : List (Option Text)} (aligned : alignHints blocks slices hints = .ok blocks') :
    ListStep blocks (.updateWithHints summary slices hints) blocks'
  | updateWithHintsKeeping {blocks blocks' : List (ReportBlock N)} {summary : Text}
    {slices : List Text} {hints : List (Option Text)} {rewritten : ReportBlock N → Bool}
    (aligned : alignKeeping blocks slices hints rewritten = .ok blocks') :
    ListStep blocks (.updateWithHintsKeeping summary slices hints rewritten) blocks'
  | replaceDroppingDataBlocks {blocks blocks' : List (ReportBlock N)} {summary body : Text}
    (aligned : alignDropping blocks body = .ok blocks') :
    ListStep blocks (.replaceDroppingDataBlocks summary body) blocks'
  | replaceSectionMembers {blocks blocks' replaced : List (ReportBlock N)} {start stop : Nat}
    {members : List Nat} {slices : List Text} {hints : List (Option Text)}
    (aligned : alignSection blocks start stop members slices hints = .ok (blocks', replaced)) :
    ListStep blocks (.replaceSectionMembers start stop members slices hints) blocks'
  | replace {before after : List (ReportBlock N)} {block : ReportBlock N} {kind content : Text} :
    ListStep (before ++ block :: after) (.upsertBlock (some block.id) kind content)
      (before ++ replaced block kind content :: after)
  | append {blocks : List (ReportBlock N)} {id kind content : Text}
    (fresh : id ∉ blocks.map ReportBlock.id) :
    ListStep blocks (.upsertBlock none kind content)
      (blocks ++ [⟨id, kind, 1, payloadOf kind content⟩])
  | move {before after : List (ReportBlock N)} {block : ReportBlock N} {toIndex : Nat}
    (inRange : toIndex < (before ++ block :: after).length) :
    ListStep (before ++ block :: after) (.moveBlock block.id toIndex)
      ((before ++ after).insertIdx toIndex block)
  | delete {before after : List (ReportBlock N)} {block : ReportBlock N} :
    ListStep (before ++ block :: after) (.deleteBlock block.id) (before ++ after)

/-! ## Simulation -/

section Simulation

variable {doc : ReportDoc} {blocks : List (ReportBlock N)}

/-- The document is the list. -/
def ReportDoc.Holds (doc : ReportDoc) (blocks : List (ReportBlock N)) : Prop :=
  ∃ layout, doc.body = .layout layout ∧ Represents layout blocks

theorem ReportDoc.Holds.sound (holds : doc.Holds blocks) : Sound blocks := by
  obtain ⟨_, _, rep⟩ := holds
  exact rep.sound

theorem ReportDoc.Holds.blocksSnapshot (holds : doc.Holds blocks) :
    doc.blocksSnapshot = .ok blocks := by
  obtain ⟨_, body, rep⟩ := holds
  rw [ReportDoc.blocksSnapshot, body]
  exact rep.snapshot

theorem ReportDoc.Holds.project (holds : doc.Holds blocks) :
    doc.project = .ok (doc.summary, flatBlocksText blocks) := by
  obtain ⟨_, body, rep⟩ := holds
  rw [ReportDoc.project, body]
  dsimp only
  rw [rep.flat]
  rfl

/-- A list that can be put in place of a sound one: stored it is sound, and it is stored as
it is if the slices are `Clean`. -/
def Fits (Clean : Prop) (block : ReportBlock N) : Prop :=
  Storable (storedBlock block) ∧ (Clean → Storable block)

theorem Sound.fits (sound : Sound blocks) (Clean : Prop) : Keeps (Fits Clean) blocks := by
  refine ⟨sound.distinct, fun block known => ?_⟩
  have storable := sound.storable block known
  exact ⟨by rwa [storedBlock_of_storable storable], fun _ => storable⟩

theorem makes_fits (noProse : Clean → NoProseFence N slices) :
    Makes (Fits (N := N) Clean) slices := fun slice inside id rev =>
  ⟨storedBlock_blockOf slice id rev, fun clean =>
    blockOf_storable (noProse clean slice inside) id rev⟩

theorem Keeps.sound (keeps : Keeps (Fits Clean) blocks) (clean : Clean) : Sound blocks :=
  ⟨keeps.distinct, fun block known => (keeps.each block known).2 clean⟩

theorem Keeps.stored (keeps : Keeps (Fits Clean) blocks) : Sound (blocks.map storedBlock) := by
  refine ⟨by simpa [Function.comp_def] using keeps.distinct, fun stored known => ?_⟩
  obtain ⟨block, inside, rfl⟩ := mem_map.mp known
  exact (keeps.each block inside).1

section

variable (holds : doc.Holds blocks)

include holds

/-- Putting an aligned list in place succeeds. -/
theorem ReportDoc.Holds.applyAligned (sound : Sound (aligned.map storedBlock)) :
    ∃ doc', doc.applyAlignedBlocks blocks aligned = .ok doc' ∧
      doc'.Holds (aligned.map storedBlock) ∧ doc'.summary = doc.summary := by
  obtain ⟨_, body, rep⟩ := holds
  obtain ⟨layout', applied, represents⟩ := rep.applyAligned_stored sound
  refine ⟨{ doc with body := .layout layout' }, ?_, ⟨layout', rfl, represents⟩, rfl⟩
  rw [ReportDoc.applyAlignedBlocks, ReportDoc.withLayout, body]
  dsimp only
  rw [applied]
  rfl

/-- A rewrite puts the aligned list in place. -/
theorem ReportDoc.Holds.rewrite_ok
    {align : List (ReportBlock N) → Except DocError (List (ReportBlock N))}
    (found : align blocks = .ok aligned) (sound : Sound (aligned.map storedBlock)) :
    ∃ doc', doc.rewrite align = .ok doc' ∧ doc'.Holds (aligned.map storedBlock) ∧
      doc'.summary = doc.summary := by
  obtain ⟨result, applied, held⟩ := holds.applyAligned sound
  refine ⟨result, bind_eq_ok.mpr ⟨blocks, holds.blocksSnapshot, ?_⟩, held⟩
  exact bind_eq_ok.mpr ⟨aligned, found, applied⟩

theorem ReportDoc.Holds.rewrite
    {align : List (ReportBlock N) → Except DocError (List (ReportBlock N))}
    (keeps : ∀ aligned, align blocks = .ok aligned → Keeps (Fits Clean) aligned)
    (done : doc.rewrite align = .ok doc') :
    ∃ aligned, doc'.Holds (aligned.map storedBlock) ∧ Keeps (Fits Clean) aligned ∧
      align blocks = .ok aligned := by
  obtain ⟨_, same, rest⟩ := bind_eq_ok.mp done
  cases holds.blocksSnapshot.symm.trans same
  obtain ⟨aligned, found, -⟩ := bind_eq_ok.mp rest
  obtain ⟨_, applied, held, -⟩ := holds.rewrite_ok found (keeps aligned found).stored
  rw [applied] at done
  exact ⟨aligned, Except.ok.inj done ▸ held, keeps aligned found, found⟩

theorem ReportDoc.Holds.setSummary (summary : Text) : (doc.setSummary summary).Holds blocks := holds

/-- An edit of the layout that gives a layout of the edited list. -/
theorem ReportDoc.Holds.withLayout {edit : Layout → Except DocError Layout}
    {Result : List (ReportBlock N) → Prop}
    (edits : ∀ layout layout', Represents layout blocks → edit layout = .ok layout' →
      ∃ blocks', Represents layout' blocks' ∧ Result blocks')
    (done : doc.withLayout missing edit = .ok doc') :
    ∃ blocks', doc'.Holds blocks' ∧ Result blocks' := by
  obtain ⟨layout, body, rep⟩ := holds
  rw [ReportDoc.withLayout, body] at done
  obtain ⟨layout', edited, rfl⟩ := map_eq_ok.mp done
  obtain ⟨blocks', represents, result⟩ := edits layout layout' rep edited
  exact ⟨blocks', ⟨layout', rfl, represents⟩, result⟩

theorem ReportDoc.Holds.upsertBlock {id : Option Text} (given : Content N kind content)
    (done : (doc.upsertBlock N id kind content).map Prod.fst = .ok doc') :
    ∃ blocks', doc'.Holds blocks' ∧ ListStep blocks (.upsertBlock id kind content) blocks' := by
  obtain ⟨_, body, rep⟩ := holds
  obtain ⟨_, ran, rfl⟩ := map_eq_ok.mp done
  rw [ReportDoc.upsertBlock, body] at ran
  obtain ⟨_, checked, ran⟩ := bind_eq_ok.mp ran
  obtain ⟨⟨layout', _⟩, upserted, ran⟩ := bind_eq_ok.mp ran
  cases ran
  cases id with
  | some =>
    obtain ⟨_, _, _, rfl, rfl, represents⟩ := rep.replaceBlock given checked upserted
    exact ⟨_, ⟨layout', rfl, represents⟩, .replace⟩
  | none =>
    obtain ⟨unused, represents⟩ := rep.appendBlock given checked upserted
    exact ⟨_, ⟨layout', rfl, represents⟩, .append unused⟩

/-- **Every successful operation does to the list what it should.**  A prose fence is the
one thing that is not stored as it is. -/
theorem Op.simulates {op : Op N} (rendered : op.Rendered) (done : op.run doc = .ok doc') :
    ∃ aligned, doc'.Holds (aligned.map storedBlock) ∧ ListStep blocks op aligned ∧
      (op.Allowed → Sound aligned) := by
  have sound : Sound blocks := holds.sound
  -- an edit of one block keeps the list sound
  have edited : (∃ blocks', doc'.Holds blocks' ∧ ListStep blocks op blocks') →
      ∃ aligned, doc'.Holds (aligned.map storedBlock) ∧ ListStep blocks op aligned ∧
        (op.Allowed → Sound aligned) := fun ⟨blocks', held, step⟩ =>
    ⟨blocks', by rwa [map_storedBlock held.sound], step, fun _ => held.sound⟩
  cases op with
  | update summary =>
    obtain ⟨aligned, held, keeps, found⟩ := (holds.setSummary summary).rewrite
      (fun _ => alignBody_keeps (makes_fits id)) done
    exact ⟨aligned, held, .update found, keeps.sound⟩
  | updateWithHints summary =>
    obtain ⟨aligned, held, keeps, found⟩ := (holds.setSummary summary).rewrite
      (fun _ => alignHints_keeps (makes_fits id)) done
    exact ⟨aligned, held, .updateWithHints found, keeps.sound⟩
  | updateWithHintsKeeping summary =>
    obtain ⟨aligned, held, keeps, found⟩ := (holds.setSummary summary).rewrite
      (fun _ => alignKeeping_keeps (sound.fits _) (makes_fits id)) done
    exact ⟨aligned, held, .updateWithHintsKeeping found, keeps.sound⟩
  | replaceDroppingDataBlocks summary =>
    obtain ⟨aligned, held, keeps, found⟩ := (holds.setSummary summary).rewrite
      (fun _ => alignDropping_keeps (makes_fits id)) done
    exact ⟨aligned, held, .replaceDroppingDataBlocks found, keeps.sound⟩
  | replaceSectionMembers _ _ _ slices =>
    obtain ⟨_, ran, rfl⟩ := map_eq_ok.mp done
    rw [ReportDoc.replaceSectionMembers, holds.blocksSnapshot] at ran
    obtain ⟨_, same, ran⟩ := bind_eq_ok.mp ran
    cases same
    obtain ⟨⟨aligned, _⟩, isAligned, ran⟩ := bind_eq_ok.mp ran
    have keeps := alignSection_keeps (sound.fits _) (makes_fits (id : NoProseFence N slices → _))
      isAligned
    obtain ⟨_, put, held, -⟩ := holds.applyAligned keeps.stored
    obtain ⟨_, put', ran⟩ := bind_eq_ok.mp ran
    cases ran
    rw [put] at put'
    exact ⟨aligned, Except.ok.inj put' ▸ held, .replaceSectionMembers isAligned, keeps.sound⟩
  | upsertBlock => exact edited (holds.upsertBlock rendered done)
  | moveBlock =>
    refine edited (holds.withLayout (fun layout layout' rep moved => ?_) done)
    obtain ⟨_, _, _, rfl, rfl, inRange, represents⟩ := rep.moveBlock moved
    exact ⟨_, represents, .move inRange⟩
  | deleteBlock =>
    refine edited (holds.withLayout (fun layout layout' rep deleted => ?_) done)
    obtain ⟨_, _, _, rfl, rfl, represents⟩ := rep.deleteBlock deleted
    exact ⟨_, represents, .delete⟩

end

theorem Op.Allowed.rendered {op : Op N} (allowed : op.Allowed) : op.Rendered := by
  cases op with
  | upsertBlock => exact allowed
  | _ => trivial

/-! ## Runs -/

/-- The documents of runs: a seed, then successful operations. -/
inductive Reaches (N : Type) [JsonReader N] : ReportDoc → Prop
  | payload {payload : TrackReportPayload N} {doc : ReportDoc}
    (noProse : NoProseFence N (splitBody N payload.body))
    (made : ReportDoc.fromPayload payload = .ok doc) : Reaches N doc
  | exact {summary : Text} {blocks : List (ReportBlock N)} {doc : ReportDoc}
    (supported : ∀ block ∈ blocks, block.kind = kindProse ∨ block.kind ∈ dataKinds)
    (objects : ∀ block ∈ blocks, block.payload.isObject = true)
    (readable : ∀ block ∈ blocks, block.kind ≠ kindProse → Json.Valid recursionLimit block.payload)
    (made : ReportDoc.fromBlocksExact summary blocks = .ok doc) : Reaches N doc
  | step {op : Op N} {doc doc' : ReportDoc} (reached : Reaches N doc) (allowed : op.Allowed)
    (done : op.run doc = .ok doc') : Reaches N doc'

theorem alignBody_stored (aligned : alignBody current body = .ok blocks) :
    Sound (blocks.map storedBlock) :=
  (alignBody_keeps (makes_fits False.elim) aligned).stored

theorem fromPayload_holds (made : ReportDoc.fromPayload payload = .ok doc) :
    doc.summary = payload.summary ∧ ∃ blocks : List (ReportBlock N),
      alignBody (payload.blocks.getD []) payload.body = .ok blocks ∧
        doc.Holds (blocks.map storedBlock) := by
  rw [ReportDoc.fromPayload] at made
  obtain ⟨blocks, aligned, made⟩ := bind_eq_ok.mp made
  obtain ⟨layout, written, represents⟩ := writeBlocksLayout_stored (alignBody_stored aligned)
  rw [written] at made
  cases made
  exact ⟨rfl, blocks, aligned, layout, rfl, represents⟩

/-- While ids do not run out, slices can be aligned. -/
theorem alignBody_ok {current : List (ReportBlock N)}
    (room : (current.map ReportBlock.id).toFinset.card + (splitBody N body).length < 65536) :
    ∃ blocks, alignBody current body = .ok blocks := by
  have total : ((current.map ReportBlock.id ++ []).toFinset.card + (splitBody N body).length) ≤
      65536 := by rw [append_nil]; omega
  obtain ⟨blocks, made⟩ := Option.isSome_iff_exists.mp (reassign_isSome total [])
  exact ⟨blocks, congrArg orExhausted made⟩

theorem fromPayload_ok {payload : TrackReportPayload N}
    (room : ((payload.blocks.getD []).map ReportBlock.id).toFinset.card +
      (splitBody N payload.body).length < 65536) :
    ∃ doc, ReportDoc.fromPayload payload = .ok doc := by
  obtain ⟨blocks, aligned⟩ := alignBody_ok room
  obtain ⟨layout, written, -⟩ := writeBlocksLayout_stored (alignBody_stored aligned)
  refine ⟨⟨payload.summary, none, .layout layout⟩, bind_eq_ok.mpr ⟨blocks, aligned, ?_⟩⟩
  rw [written]
  rfl

theorem validKind_of_dataKind (isData : kind ∈ dataKinds) : kind ≠ kindProse ∧ ValidKind kind := by
  have all : ∀ kind ∈ dataKinds, kind ≠ kindProse ∧ kind ≠ [] ∧ kind.all isKindChar = true := by
    decide
  exact all kind isData

theorem fromBlocksExact_holds
    (supported : ∀ block ∈ blocks, block.kind = kindProse ∨ block.kind ∈ dataKinds)
    (objects : ∀ block ∈ blocks, block.payload.isObject = true)
    (readable : ∀ block ∈ blocks, block.kind ≠ kindProse → Json.Valid recursionLimit block.payload)
    (made : ReportDoc.fromBlocksExact summary blocks = .ok doc) :
    doc.Holds (blocks.map storedBlock) := by
  rw [ReportDoc.fromBlocksExact] at made
  split at made
  · cases made
  next noDuplicate =>
    cases made
    refine ⟨_, rfl, writeExact_represents ⟨?_, fun stored isStored => ?_⟩⟩
    · have distinct := (nodup_of_firstDuplicate noDuplicate).1
      simpa [Function.comp_def] using distinct
    · obtain ⟨block, known, rfl⟩ := mem_map.mp isStored
      by_cases isProse : block.kind = kindProse
      · exact .prose (flatText block) ((storedBlock_kind block).trans isProse)
          (by rw [storedBlock, if_pos isProse])
      · rw [storedBlock, if_neg isProse]
        exact .data isProse (validKind_of_dataKind ((supported block known).resolve_left isProse)).2
          ⟨objects block known, readable block known isProse⟩

theorem Reaches.holds (reached : Reaches N doc) :
    ∃ blocks : List (ReportBlock N), doc.Holds blocks := by
  induction reached with
  | payload _ made =>
    obtain ⟨-, _, -, holds⟩ := fromPayload_holds made
    exact ⟨_, holds⟩
  | exact supported objects readable made =>
    exact ⟨_, fromBlocksExact_holds supported objects readable made⟩
  | step _ allowed done ih =>
    obtain ⟨_, holds⟩ := ih
    obtain ⟨_, held, -⟩ := Op.simulates holds allowed.rendered done
    exact ⟨_, held⟩

/-- **The document refines a list of blocks.**  While ids do not run out a payload seeds a
document; along every run the snapshot succeeds, its ids are distinct and the projected
body is its flat text; and each operation takes the snapshot to its list result. -/
theorem document_refines (N : Type) [JsonReader N] :
    (∀ payload : TrackReportPayload N, NoProseFence N (splitBody N payload.body) →
      (((payload.blocks.getD []).map ReportBlock.id).toFinset.card +
        (splitBody N payload.body).length < 65536) →
      ∃ doc, ReportDoc.fromPayload payload = .ok doc) ∧
    ∀ doc, Reaches N doc → ∃ blocks : List (ReportBlock N),
      doc.blocksSnapshot = .ok blocks ∧ (blocks.map ReportBlock.id).Nodup ∧
      doc.project = .ok (doc.summary, flatBlocksText blocks) ∧
      ∀ (op : Op N) (doc' : ReportDoc), op.Allowed → op.run doc = .ok doc' →
        ∃ blocks', doc'.blocksSnapshot = .ok blocks' ∧ ListStep blocks op blocks' := by
  refine ⟨fun payload _ room => ?_, fun doc reached => ?_⟩
  · exact fromPayload_ok room
  · obtain ⟨blocks, holds⟩ := reached.holds
    refine ⟨blocks, holds.blocksSnapshot, holds.sound.distinct, holds.project,
      fun op doc' allowed done => ?_⟩
    obtain ⟨aligned, held, step, sound⟩ := Op.simulates holds allowed.rendered done
    rw [map_storedBlock (sound allowed)] at held
    exact ⟨aligned, held.blocksSnapshot, step⟩

end Simulation

/-! ## A report at its bounds -/

/-- A prose block at the last revision. -/
def trialProse (markdown : Text) : ReportBlock NumberToken :=
  ⟨"b_0001".toList, kindProse, 0xFFFFFFFF, prosePayload markdown⟩

def trialApp : ReportBlock NumberToken :=
  ⟨"b_0002".toList, kindApp, 1, .object [("src".toList, .string "/x".toList)]⟩

def trialBlocks : List (ReportBlock NumberToken) := [trialProse "# A\n".toList, trialApp]

def trialDoc : ReportDoc := ⟨[], none, .layout (Layout.writeExact trialBlocks)⟩

/-- An object with one text. -/
def isField : Json NumberToken → Bool
  | .object [(_, .string _)] => true
  | _ => false

theorem readable_of_fields (blocks : List (ReportBlock NumberToken))
    (fields : ∀ block ∈ blocks, block.kind ≠ kindProse → isField block.payload = true) :
    ∀ block ∈ blocks, block.kind ≠ kindProse → Json.Valid recursionLimit block.payload := by
  intro block known isData
  have isOne := fields block known isData
  unfold isField at isOne
  split at isOne
  next shape =>
    rw [shape]
    refine .object (pairwise_singleton _ _) fun member inside => ?_
    obtain rfl := mem_singleton.mp inside
    exact .string
  next => cases isOne

theorem trialDoc_reached : Reaches NumberToken trialDoc :=
  .exact (by decide) (by decide) (readable_of_fields trialBlocks (by decide)) rfl

theorem trialDoc_holds : trialDoc.Holds trialBlocks :=
  fromBlocksExact_holds (by decide) (by decide) (readable_of_fields trialBlocks (by decide)) rfl

theorem document_refines_trial :
    (∃ doc, ReportDoc.fromPayload (N := NumberToken) ⟨[], "# A\n".toList, none⟩ = .ok doc) ∧
    ∃ blocks : List (ReportBlock NumberToken),
      trialDoc.blocksSnapshot = .ok blocks ∧ (blocks.map ReportBlock.id).Nodup ∧
      trialDoc.project = .ok (trialDoc.summary, flatBlocksText blocks) ∧
      ∀ (op : Op NumberToken) (doc' : ReportDoc), op.Allowed → op.run trialDoc = .ok doc' →
        ∃ blocks', doc'.blocksSnapshot = .ok blocks' ∧ ListStep blocks op blocks' := by
  refine ⟨(document_refines NumberToken).1 _ ?_ (by decide +kernel),
    (document_refines NumberToken).2 trialDoc trialDoc_reached⟩
  intro slice known fence read
  have one : splitBody NumberToken "# A\n".toList = ["# A\n".toList] := by decide +kernel
  rw [one, mem_singleton] at known
  subst known
  cases read

/-- The document with the prose replaced, as the source writes it. -/
def trialReplaced : ReportDoc :=
  ⟨[], none, .layout ((Layout.writeExact trialBlocks).insertBlockEntry "b_0001".toList kindProse
    0xFFFFFFFF "# B\n".toList)⟩

theorem trialReplaced_holds : trialReplaced.Holds [trialProse "# B\n".toList, trialApp] := by
  obtain ⟨_, body, rep⟩ := trialDoc_holds
  cases body
  have storable : Storable (trialProse "# B\n".toList) := .prose _ rfl rfl
  have shape : trialBlocks = [] ++ trialProse "# A\n".toList :: [trialApp] := rfl
  rw [shape] at rep
  have text : flatText (trialProse "# B\n".toList) = "# B\n".toList := by decide
  have inserted := rep.insert (trialProse "# B\n".toList) rfl storable
  rw [text] at inserted
  exact ⟨_, rfl, inserted⟩

theorem trialReplaced_run : (Op.upsertBlock (some "b_0001".toList) kindProse "# B\n".toList :
    Op NumberToken).run trialDoc = .ok trialReplaced := by
  obtain ⟨_, body, rep⟩ := trialDoc_holds
  cases body
  have found : (Layout.writeExact trialBlocks).blocks["b_0001".toList]? =
      some (Entry.of (trialProse "# A\n".toList)) := rep.found mem_cons_self
  have changed : ¬ ((Entry.of (trialProse "# A\n".toList)).kind = kindProse ∧
      (Entry.of (trialProse "# A\n".toList)).text = "# B\n".toList) := by decide
  have rev : nextRev (UInt32.ofNat (Entry.of (trialProse "# A\n".toList)).rev) = 0xFFFFFFFF := by
    decide
  have ran : (Layout.writeExact trialBlocks).replaceBlock "b_0001".toList kindProse
      "# B\n".toList = .ok ((Layout.writeExact trialBlocks).insertBlockEntry "b_0001".toList
        kindProse 0xFFFFFFFF "# B\n".toList, "b_0001".toList, 0xFFFFFFFF) := by
    rw [Layout.replaceBlock, found]
    dsimp only
    rw [if_pos (by decide), if_neg changed, rev]
  simp only [Op.run, ReportDoc.upsertBlock, Layout.checkContent, trialDoc, Layout.upsertBlock, ran]
  rfl

/-- Objects within an object, `depth` of them. -/
def nested : Nat → Json NumberToken
  | 0 => .object []
  | depth + 1 => .object [("a".toList, nested depth)]

theorem nested_valid_iff : Json.Valid limit (nested depth) ↔ depth < limit := by
  induction depth generalizing limit with
  | zero =>
    constructor
    · intro valid
      cases valid
      exact Nat.succ_pos _
    · intro room
      obtain ⟨limit, rfl⟩ := Nat.exists_eq_succ_of_ne_zero room.ne'
      exact .object .nil nofun
  | succ depth ih =>
    constructor
    · intro valid
      obtain _ | _ | _ | _ | _ | ⟨-, each⟩ := valid
      exact Nat.succ_lt_succ (ih.mp (each _ mem_cons_self))
    · intro room
      obtain ⟨limit, rfl⟩ := Nat.exists_eq_succ_of_ne_zero (Nat.ne_of_gt (Nat.zero_lt_of_lt room))
      refine .object (pairwise_singleton _ _) fun member inside => ?_
      obtain rfl := mem_singleton.mp inside
      exact ih.mpr (Nat.lt_of_succ_lt_succ room)

/-- A data block one container deeper than the reader goes. -/
def deepApp : ReportBlock NumberToken :=
  ⟨"b_0001".toList, kindApp, 1, nested recursionLimit⟩

def deepDoc : ReportDoc := ⟨[], none, .layout (Layout.writeExact [deepApp])⟩

theorem deepDoc_unread (blocks : List (ReportBlock NumberToken)) :
    deepDoc.blocksSnapshot ≠ .ok blocks := by
  intro done
  change (Layout.writeExact [deepApp]).snapshot = .ok blocks at done
  rw [Layout.snapshot] at done
  split at done
  · cases done
  split at done
  · have order : (Layout.writeExact [deepApp]).order = [deepApp.id] := rfl
    rw [order, mapM_cons] at done
    obtain ⟨_, read, -⟩ := bind_eq_ok.mp done
    have found : (Layout.writeExact [deepApp]).blocks[deepApp.id]? = some (Entry.of deepApp) :=
      Std.ExtTreeMap.getElem?_insert_self
    have valid := validPayload_of_readBlock found (by decide)
      (nested_valid_iff.mpr (Nat.lt_succ_self _)) read
    exact absurd (nested_valid_iff.mp valid.2) (Nat.lt_irrefl _)
  · cases done

/-- The two bounds.  The revision of a replaced block stays at the last one, so that the new
text has no new number; and a payload deeper than the reader goes is stored and not read. -/
theorem document_bounds :
    (Reaches NumberToken trialDoc ∧ ∃ (doc' : ReportDoc) (block block' : ReportBlock NumberToken)
      (rest : List (ReportBlock NumberToken)),
      trialDoc.blocksSnapshot = .ok (block :: rest) ∧
      (Op.upsertBlock (some block.id) kindProse "# B\n".toList : Op NumberToken).run trialDoc =
        .ok doc' ∧
      doc'.blocksSnapshot = .ok (block' :: rest) ∧
      flatText block' ≠ flatText block ∧ block'.rev.toNat ≠ block.rev.toNat + 1) ∧
    deepApp.kind ∈ dataKinds ∧ deepApp.payload.isObject = true ∧
    ReportDoc.fromBlocksExact [] [deepApp] = .ok deepDoc ∧
    ∀ blocks : List (ReportBlock NumberToken), deepDoc.blocksSnapshot ≠ .ok blocks :=
  ⟨⟨trialDoc_reached, trialReplaced, trialProse "# A\n".toList, trialProse "# B\n".toList,
    [trialApp], trialDoc_holds.blocksSnapshot, trialReplaced_run,
    trialReplaced_holds.blocksSnapshot, by decide, by decide⟩,
    by decide, rfl, rfl, deepDoc_unread⟩

end NeigeCalm.Report
