import NeigeCalm.Report.Boundaries
import NeigeCalm.Report.Framing
import NeigeCalm.Report.Identity

/-!
# The prose replace

A whole body is put in place of the report.  It may not touch a data block: before the write, a
guard aligns the body with the blocks that the write owns and refuses it unless every data
block comes out as it was.  The write aligns once more, now with the ids of the objectives
reserved.  Reserved ids only change which fresh ids are minted, never which slice continues
which block (`assignments` does not see them), so what the guard saw is what is written
(`guarded_kept`).

The rewrite of the header line and the guards that compare the blocks before and after are
parameters: the first gives the body that all checks see, the others can only refuse.
-/

namespace NeigeCalm.Report

open Library List Fallible Option

variable {N : Type} [JsonReader N]

/-! ## The operation -/

/-- The rules around the write. -/
structure ReplaceRules (N : Type) where
  schemas : Schemas N
  normalizeHeader : Text → Except Text Text
  /-- Origination of compact tasks, task declarations and objectives, for one author. -/
  diffGuards : List (ReportBlock N) → List (ReportBlock N) → Except CalmError Unit

def revConflict (current expected : Nat) : Text :=
  "document revision conflict: current doc_rev is ".toList ++ DocError.ofNat current ++
    ", expected if_doc_rev ".toList ++ DocError.ofNat expected ++
    " — re-read the report text, merge your changes, and retry".toList

def checkDocRev (doc : ReportDoc) (expected : Nat) : Except CalmError Unit :=
  if doc.rev = expected then .ok () else .error (.conflict (revConflict doc.rev expected))

/-- An error of the document as the answer of a request. -/
def internalError (context : String) (error : DocError) : CalmError :=
  .internal (context.toList ++ error.message)

def stompError (old : ReportBlock N) : Text :=
  "this write would modify or delete non-prose block ".toList ++ old.id ++ " (kind ".toList ++
    old.kind ++ (") — the prose write/edit path may not touch data blocks; use the " ++
    "block-level endpoints (task deletion must use the block-level DELETE path), and keep " ++
    "unrelated ```neige-block fences byte-identical").toList

/-- A block with the id, the kind and the text is there. -/
def preserved (aligned : List (ReportBlock N)) (old : ReportBlock N) : Bool :=
  aligned.any fun new => new.id = old.id && new.kind = old.kind && flatText new = flatText old

/-- A replace may not modify or delete a data block.  Objectives are kept by the write. -/
def guardNonProseStomp (N : Type) [JsonReader N] (doc : ReportDoc) (body : Text) :
    Except CalmError Unit := do
  let current ← (doc.blocksSnapshot (N := N)).mapError
    (internalError "track_report: snapshot for stomp guard: ")
  let current := current.filter fun block => block.kind ≠ kindObjective
  if current.all fun block => block.kind = kindProse then return ()
  -- running out of ids is a panic of the source
  let aligned ← (orExhausted (reassignIds current (splitBody N body))).mapError
    (internalError "")
  match (current.filter fun block => block.kind ≠ kindProse).find? fun old =>
      !preserved aligned old with
  | some old => .error (.badRequest (stompError old))
  | none => return ()

/-- Some slice is an objective. -/
def carriesObjective (N : Type) [JsonReader N] (slices : List Text) : Bool :=
  (slices.filterMap fun slice => (parseFence (N := N) slice)).any fun fence =>
    fence.kind = kindObjective

/-- The arm of the replace: summary and body, against the revision the caller read. -/
def replaceArm (rules : ReplaceRules N) (doc : ReportDoc) (summary body : Text) (ifDocRev : Nat) :
    Except CalmError ReportDoc := do
  checkDocRev doc ifDocRev
  let body ← (rules.normalizeHeader body).mapError fun error =>
    .badRequest ("report contract header: ".toList ++ error)
  validateBodyFences rules.schemas body
  let slices := splitBody N body
  if carriesObjective N slices then
    throw (.badRequest "a whole write may not carry objective fences; use an upsert by id".toList)
  guardNonProseStomp N doc body
  (doc.updateWithHintsKeeping summary slices (replicate slices.length none)
    fun block : ReportBlock N => block.kind ≠ kindObjective).mapError
    (internalError "track_report: block op: ")

/-- The whole operation: the arm, the guards on the difference, and the next revision. -/
def applyReplace (rules : ReplaceRules N) (doc : ReportDoc) (summary body : Text)
    (ifDocRev : Nat) : Except CalmError ReportDoc := do
  let before ← (doc.blocksSnapshot (N := N)).mapError
    (internalError "track_report: snapshot before task guard: ")
  let doc ← replaceArm rules doc summary body ifDocRev
  let after ← (doc.blocksSnapshot (N := N)).mapError
    (internalError "track_report: snapshot after task guard: ")
  rules.diffGuards before after
  doc.incrementDocRev.mapError (internalError "track_report: increment document revision: ")

/-! ## The guard and the write see the same binding -/

section Binding

variable {old : List (ReportBlock N)}

theorem assignments_unhinted (unhinted : ∀ hint ∈ hints, hint = none) :
    assignments old slices hints = assignments old slices [] := by
  rw [assignments, assignments, bindHints_unhinted unhinted,
    bindHints_unhinted fun _ none => absurd none not_mem_nil]

/-- A slice that reads as a data block with the same text continues it unchanged. -/
theorem blockOf_unchanged {block : ReportBlock N} (storable : Storable block)
    (isData : block.kind ≠ kindProse) {slice id : Text}
    (kind : (blockOf (N := N) slice id rev).kind = block.kind)
    (text : flatText (blockOf (N := N) slice id rev) = flatText block) :
    blockOf slice block.id (continuedRev block slice) = block := by
  have own := storable.parseFence isData
  cases read : (parseFence (N := N) slice) with
  | none =>
    rw [blockOf, read] at kind
    exact absurd kind.symm isData
  | some fence =>
    rw [blockOf, read] at kind text
    dsimp only at kind text
    have rendered : renderFence fence.kind fence.payload = flatText block := by
      rw [← text]
      exact (if_neg (by rwa [kind])).symm
    -- both texts are read back as what they render
    obtain ⟨validKind, validPayload⟩ := parseFence_valid read
    have again := parseFence_renderFence validKind validPayload
    rw [rendered, own] at again
    have payload : block.payload = fence.payload := congrArg NonProseFence.payload (some.inj again)
    have same : continuedRev block slice = block.rev := by
      refine if_pos ?_
      rw [comparableFlat, if_neg isData, canonical, read]
      exact congrArg some rendered.symm
    rw [blockOf, read, same]
    dsimp only
    rw [kind, ← payload]

/-- **What the guard saw is what is written.** -/
theorem guarded_kept {reserved : List Text} {hints : List (Option Text)}
    (distinct : (old.map ReportBlock.id).Nodup) (unhinted : ∀ hint ∈ hints, hint = none)
    (simulated : reassignIds old slices = some seen)
    (made : reassignIdsWithHintsReserving old slices hints reserved = some written)
    (known : block ∈ old) (storable : Storable block) (isData : block.kind ≠ kindProse)
    (passed : preserved seen block = true) : block ∈ written := by
  obtain ⟨_, inSeen, same⟩ := any_eq_true.mp passed
  simp only [Bool.and_eq_true, decide_eq_true_eq] at same
  obtain ⟨⟨sameId, kind⟩, text⟩ := same
  obtain ⟨place, atSeen⟩ := getElem?_of_mem inSeen
  obtain ⟨_, seenMade⟩ := newBlocks_made simulated
  obtain ⟨_, writtenMade⟩ := newBlocks_made made
  rw [assignments_unhinted unhinted] at writtenMade
  obtain ⟨_, -⟩ := List.getElem?_eq_some_iff.mp atSeen
  have atSlice : slices[place]? = some slices[place] := getElem?_eq_getElem _
  have atWritten : written[place]? = some written[place] := getElem?_eq_getElem _
  have one := seenMade place _ _ atSlice atSeen
  have other := writtenMade place _ _ atSlice atWritten
  cases bound : (assignments old slices []).getD (0 + place) none with
  | none =>
    -- a minted id is not the id of a block
    obtain ⟨_, unused, rfl⟩ := one.fresh bound
    rw [blockOf_id] at sameId
    refine absurd (mem_append_left _ ?_) unused
    exact mem_map.mpr ⟨block, known, sameId.symm⟩
  | some oldIndex =>
    obtain ⟨_, atOld, rfl⟩ := one.continued oldIndex bound
    obtain ⟨_, atOld', isWritten⟩ := other.continued oldIndex bound
    cases atOld.symm.trans atOld'
    rw [blockOf_id] at sameId
    obtain rfl := eq_of_id distinct (mem_of_getElem? atOld) known sameId
    rw [blockOf_unchanged storable isData kind text] at isWritten
    exact isWritten ▸ mem_of_getElem? atWritten

end Binding

/-! ## What a replace leaves -/

section Replace

variable {rules : ReplaceRules N} {current : List (ReportBlock N)}
  {summary body : Text} {ifDocRev : Nat}

/-- A body that passes the guard preserves every data block in the simulated alignment. -/
theorem guardNonProseStomp_ok (read : doc.blocksSnapshot = .ok current)
    (passed : guardNonProseStomp N doc body = .ok ()) :
    ∀ block ∈ current, block.kind ≠ kindObjective → block.kind ≠ kindProse →
      ∃ seen, reassignIds (current.filter fun block => block.kind ≠ kindObjective)
        (splitBody N body) = some seen ∧ preserved seen block = true := by
  intro block known owned isData
  rw [guardNonProseStomp, read] at passed
  have isOwned : block ∈ current.filter fun block => block.kind ≠ kindObjective :=
    mem_filter.mpr ⟨known, decide_eq_true owned⟩
  obtain ⟨_, same, passed⟩ := bind_eq_ok.mp passed
  cases same
  dsimp only at passed
  split at passed
  next allProse =>
    exact absurd (of_decide_eq_true (all_eq_true.mp allProse block isOwned)) isData
  next =>
    obtain ⟨seen, aligned, passed⟩ := bind_eq_ok.mp passed
    refine ⟨seen, ?_, ?_⟩
    · exact orExhausted_eq_ok (mapError_eq_ok.mp aligned)
    · split at passed
      · cases passed
      next none =>
        have found := find?_eq_none.mp none block (mem_filter.mpr ⟨isOwned, decide_eq_true isData⟩)
        simpa using found

/-- A replace that succeeds passed its checks with the body it wrote. -/
theorem replaceArm_ok (done : replaceArm rules doc summary body ifDocRev = .ok doc') :
    ∃ body', carriesObjective N (splitBody N body') = false ∧
      guardNonProseStomp N doc body' = .ok () ∧
      doc.updateWithHintsKeeping summary (splitBody N body')
        (replicate (splitBody N body').length none)
        (fun block : ReportBlock N => block.kind ≠ kindObjective) = .ok doc' := by
  obtain ⟨_, -, done⟩ := bind_eq_ok.mp done
  obtain ⟨body', -, done⟩ := bind_eq_ok.mp done
  obtain ⟨_, -, done⟩ := bind_eq_ok.mp done
  dsimp only at done
  split at done
  · cases done
  next plain =>
    obtain ⟨_, guarded, done⟩ := bind_eq_ok.mp done
    exact ⟨body', by simpa using plain, guarded, mapError_eq_ok.mp done⟩

/-- No block made of the slices is an objective. -/
theorem kind_ne_objective (plain : carriesObjective N slices = false) (inside : slice ∈ slices)
    (id : Text) (rev : UInt32) : (blockOf (N := N) slice id rev).kind ≠ kindObjective := by
  unfold blockOf
  split
  next fence read =>
    intro isObjective
    have carries : carriesObjective N slices = true := any_eq_true.mpr
      ⟨fence, mem_filterMap.mpr ⟨slice, inside, read⟩, decide_eq_true isObjective⟩
    cases plain.symm.trans carries
  next => exact (by decide : kindProse ≠ kindObjective)

/-- **A prose replace never touches a data block.** -/
theorem replace_keeps_data (rules : ReplaceRules N) (doc doc' : ReportDoc)
    (current : List (ReportBlock N)) (holds : doc.Holds current) (summary body : Text)
    (ifDocRev : Nat) (done : applyReplace rules doc summary body ifDocRev = .ok doc') :
    ∃ after, doc'.blocksSnapshot = .ok after ∧
      (∀ block ∈ current, block.kind ≠ kindProse →
        after.filter (fun other => other.id = block.id) = [block]) ∧
      ∀ block ∈ after, block.kind = kindObjective → block ∈ current := by
  obtain ⟨_, -, done⟩ := bind_eq_ok.mp done
  obtain ⟨written, armed, done⟩ := bind_eq_ok.mp done
  obtain ⟨_, -, done⟩ := bind_eq_ok.mp done
  obtain ⟨_, -, done⟩ := bind_eq_ok.mp done
  have sameBlocks : doc'.blocksSnapshot (N := N) = written.blocksSnapshot := by
    have counted := mapError_eq_ok.mp done
    rw [ReportDoc.incrementDocRev] at counted
    split at counted
    · rw [← Except.ok.inj counted]
      rfl
    · cases counted
  obtain ⟨_, plain, guarded, updated⟩ := replaceArm_ok armed
  obtain ⟨replaced, after, made, held, framed⟩ := holds.framed_of_ok updated
  have sound := holds.sound
  refine ⟨after, by rw [sameBlocks, held.blocksSnapshot], fun block known isData => ?_,
    fun block known isObjective => ?_⟩
  · by_cases owned : block.kind = kindObjective
    · exact framed.kept block known (by simp [owned])
    · obtain ⟨_, simulated, passed⟩ :=
        guardNonProseStomp_ok holds.blocksSnapshot guarded block known owned isData
      have isWritten : block ∈ replaced :=
        guarded_kept (sound.distinct.sublist (filter_sublist.map _))
          (fun hint inside => eq_of_mem_replicate inside) simulated made
          (mem_filter.mpr ⟨known, decide_eq_true owned⟩) (sound.storable block known) isData
          passed
      have stored : block ∈ replaced.map storedBlock := mem_map.mpr
        ⟨block, isWritten, storedBlock_of_storable (sound.storable block known)⟩
      rw [← framed.selected] at stored
      exact filter_same_id framed.distinct (mem_of_mem_filter stored)
  · by_contra isNew
    have isSelected : block ∈ replaced.map storedBlock := by
      rw [← framed.selected]
      refine mem_filter.mpr ⟨known, decide_eq_true fun kept => isNew ?_⟩
      obtain ⟨old, inside, same⟩ := mem_map.mp kept
      obtain ⟨isOld, isKept⟩ := mem_filter.mp inside
      have once := framed.kept old isOld (by simpa using isKept)
      have there : block ∈ after.filter fun other => other.id = old.id :=
        mem_filter.mpr ⟨known, decide_eq_true same.symm⟩
      rw [once] at there
      exact mem_singleton.mp there ▸ isOld
    obtain ⟨_, inside, rfl⟩ := mem_map.mp isSelected
    obtain ⟨_, isSlice, origin⟩ := (reassign_aligned made).exists_slice inside
    rw [storedBlock_kind, origin.eq_blockOf] at isObjective
    exact kind_ne_objective plain isSlice _ _ isObjective

end Replace

/-! ## Prose rewritten next to an objective -/

theorem ReportDoc.docRev_rewrite {doc doc' : ReportDoc}
    {align : List (ReportBlock N) → Except DocError (List (ReportBlock N))}
    (done : doc.rewrite align = .ok doc') : doc'.docRev = doc.docRev := by
  obtain ⟨_, -, done⟩ := bind_eq_ok.mp done
  obtain ⟨_, -, done⟩ := bind_eq_ok.mp done
  rw [ReportDoc.applyAlignedBlocks, ReportDoc.withLayout] at done
  split at done
  · cases done
  · obtain ⟨_, -, rfl⟩ := map_eq_ok.mp done
    rfl

def objectiveBlock : ReportBlock NumberToken :=
  ⟨"b_0003".toList, kindObjective, 7, .object [("key".toList, .string "k".toList)]⟩

/-- The objective stays out of the write; the app block is in its body. -/
def objectiveBlocks : List (ReportBlock NumberToken) :=
  [trialProse "# A\n".toList, trialApp, objectiveBlock]

def objectiveDoc : ReportDoc := ⟨[], none, .layout (Layout.writeExact objectiveBlocks)⟩

theorem objectiveDoc_holds : objectiveDoc.Holds objectiveBlocks :=
  fromBlocksExact_holds (by decide) (by decide) (readable_of_fields objectiveBlocks (by decide)) rfl

def plainRules : ReplaceRules NumberToken := ⟨fun _ _ => [], .ok, fun _ _ => .ok ()⟩

def objectiveBody : Text := "# B\n".toList ++ flatText trialApp

theorem splitBody_objectiveBody :
    splitBody NumberToken objectiveBody = ["# B\n".toList, flatText trialApp] := by
  have storable := trialDoc_holds.sound.storable trialApp (mem_cons_of_mem _ mem_cons_self)
  have app : Reads NumberToken (Text.lines (flatText trialApp ++ [])) [.cut (flatText trialApp)] :=
    .data storable (by decide) .nil
  rw [append_nil] at app
  have heading : Text.IsLine "# B\n".toList := ⟨"# B".toList, rfl, by decide⟩
  have reads : Reads NumberToken (Text.lines objectiveBody)
      [.heading "# B\n".toList, .cut (flatText trialApp)] := by
    rw [objectiveBody, Text.lines_of_isLine heading]
    exact .line (by decide +kernel) app
  rw [splitBody_eq reads (by simp [objectiveBody])]
  exact congrArg₂ (fun first second => [first, second]) (append_nil _) (append_nil _)

theorem objectiveDoc_replaced : ∃ doc',
    applyReplace plainRules objectiveDoc "s".toList objectiveBody 0 = .ok doc' := by
  have slices := splitBody_objectiveBody
  obtain ⟨_, made⟩ := reassign_of_few
    (objectiveBlocks.filter fun block => block.kind ≠ kindObjective)
    ["# B\n".toList, flatText trialApp]
    ((objectiveBlocks.filter fun block : ReportBlock NumberToken =>
      !decide (block.kind ≠ kindObjective)).map ReportBlock.id) (by decide) [none, none]
  obtain ⟨written, after, updated, held, -⟩ := objectiveDoc_holds.updateWithHintsKeeping
    "s".toList made
  have guarded : guardNonProseStomp NumberToken objectiveDoc objectiveBody = .ok () := by
    rw [guardNonProseStomp, objectiveDoc_holds.blocksSnapshot, slices]
    decide +kernel
  have armed : replaceArm plainRules objectiveDoc "s".toList objectiveBody 0 = .ok written := by
    refine bind_eq_ok.mpr ⟨(), rfl, bind_eq_ok.mpr ⟨objectiveBody, rfl, ?_⟩⟩
    refine bind_eq_ok.mpr ⟨(), ?_, ?_⟩
    · rw [validateBodyFences, slices]
      decide +kernel
    have plain : carriesObjective NumberToken ["# B\n".toList, flatText trialApp] = false := by
      decide +kernel
    dsimp only
    rw [slices, plain, if_neg Bool.false_ne_true]
    exact bind_eq_ok.mpr ⟨(), guarded, mapError_eq_ok.mpr updated⟩
  refine ⟨{ written with docRev := some (written.rev + 1) }, ?_⟩
  refine bind_eq_ok.mpr ⟨objectiveBlocks, ?_, bind_eq_ok.mpr ⟨written, armed, ?_⟩⟩
  · exact mapError_eq_ok.mpr objectiveDoc_holds.blocksSnapshot
  · refine bind_eq_ok.mpr ⟨after, mapError_eq_ok.mpr held.blocksSnapshot, ?_⟩
    have first : written.rev = 0 := by
      rw [ReportDoc.rev, ReportDoc.docRev_rewrite updated]
      rfl
    refine bind_eq_ok.mpr ⟨(), rfl, mapError_eq_ok.mpr (if_pos ?_)⟩
    rw [first]
    decide

theorem replace_keeps_data_objective :
    objectiveDoc.Holds objectiveBlocks ∧ ∃ doc' after,
      applyReplace plainRules objectiveDoc "s".toList objectiveBody 0 = .ok doc' ∧
      doc'.blocksSnapshot = .ok after ∧
      after.filter (fun other => other.id = trialApp.id) = [trialApp] ∧
      after.filter (fun other => other.id = objectiveBlock.id) = [objectiveBlock] := by
  obtain ⟨doc', done⟩ := objectiveDoc_replaced
  obtain ⟨after, read, kept, -⟩ := replace_keeps_data plainRules objectiveDoc doc' objectiveBlocks
    objectiveDoc_holds _ _ _ done
  exact ⟨objectiveDoc_holds, doc', after, done, read,
    kept trialApp (by simp [objectiveBlocks]) (by decide),
    kept objectiveBlock (by simp [objectiveBlocks]) (by decide)⟩

end NeigeCalm.Report
