import Mathlib.Algebra.Order.BigOperators.Group.List
import Mathlib.Algebra.Order.Group.Nat
import NeigeCalm.Report.Refinement
import NeigeCalm.Report.Slices

/-!
# What seeding and rewriting keep

A document that is written from a body projects the canonical body, and writing that body
again changes nothing (`Lossless`), exactly when no slice of the body is a fence of the
kind of prose (`written_lossless`).  Such a fence is read as a prose block with the
payload of the fence, so all but the payload's `markdown` text is lost.
-/

namespace NeigeCalm.Report

open Library List Fallible
open ReportDoc (ensureBlockObjects fromPayload)

variable {N : Type} [JsonReader N]

/-! ## The text a slice leaves -/

section Texts

variable (N) in
/-- The text that is stored for a slice. -/
def storedText (slice : Text) : Text := flatText (blockOf slice [] 0 : ReportBlock N)

theorem flatText_blockOf (slice id : Text) (rev : UInt32) :
    flatText (blockOf (N := N) slice id rev) = storedText N slice := by
  unfold storedText blockOf
  split <;> rfl

/-- The slice is a fence of the kind of prose. -/
def ProseFence (N : Type) [JsonReader N] (slice : Text) : Prop :=
  ∃ fence : NonProseFence N, parseFence slice = some fence ∧ fence.kind = kindProse

theorem storedText_canonical (noProse : ¬ ProseFence N slice) :
    storedText N slice = canonical (N := N) slice := by
  unfold storedText blockOf canonical
  split
  next fence read => exact if_neg fun isProse => noProse ⟨fence, read, isProse⟩
  next => rfl

theorem length_quote (s : Text) : s.length ≤ (quote s).length := by
  have escaped : s.length ≤ (s.flatMap escapeChar).length := by
    induction s with
    | nil => exact Nat.le_refl _
    | cons c =>
      have some : 0 < (escapeChar c).length := by
        unfold escapeChar
        split_ifs <;> exact Nat.succ_pos _
      rw [flatMap_cons, length_append, length_cons]
      omega
  simp only [quote, length_cons, length_append]
  omega

/-- A container is at least as long as each of its values. -/
theorem length_writeValue (indent : Nat) {members : List (Text × Json N)}
    (inside : member ∈ members) :
    (writeValue (indent + 1) member.2).length ≤ (writeValue indent (.object members)).length := by
  have sorted : (member.1, writeValue (indent + 1) member.2) ∈
      (memberTexts (indent + 1) members).mergeSort fun a b => a.1 ≤ b.1 := by
    rw [mem_mergeSort, memberTexts_eq_map]
    exact mem_map.mpr ⟨member, inside, rfl⟩
  have inLines := (Json.length_separated (pad (indent + 1)) ['\n'] ['\n'] _).2 _
    (mem_map_of_mem (f := memberText) sorted)
  have some : members.isEmpty = false := by cases members <;> first | rfl | cases inside
  rw [memberText, length_append] at inLines
  dsimp only at inLines
  simp only [writeValue, some, Bool.false_eq_true, if_false, length_append, bodyLines]
  omega

theorem length_markdownOf (payload : Json N) :
    ((markdownOf payload).getD []).length ≤ (canonicalJson payload).length := by
  cases found : markdownOf payload with
  | none => exact Nat.zero_le _
  | some =>
    obtain ⟨value, got, isString⟩ := Option.bind_eq_some_iff.mp found
    cases value with
    | string s =>
      obtain rfl := Option.some.inj isString
      cases payload with
      | object =>
        obtain ⟨_, here, same⟩ := Option.map_eq_some_iff.mp got
        have longer := length_writeValue 0 (mem_of_find?_eq_some here)
        rw [same] at longer
        exact (length_quote s).trans longer
      | null | bool | number | string | array => cases got
    | null | bool | number | array | object => cases isString

/-- The text of a prose fence is much shorter than the fence. -/
theorem length_storedText (isProse : ProseFence N slice) :
    (storedText N slice).length + 1 < (canonical (N := N) slice).length := by
  obtain ⟨fence, read, prose⟩ := isProse
  have stored : storedText N slice = (markdownOf fence.payload).getD [] := by
    unfold storedText blockOf
    rw [read]
    exact if_pos prose
  have shorter := length_markdownOf fence.payload
  rw [stored, canonical, read]
  simp only [renderFence, length_append, length_cons, length_nil]
  omega

end Texts

/-! ## Joined texts -/

/-- Texts one after the other, each on a line of its own. -/
def joined (texts : List Text) : Text := texts.foldl appendBlockText []

/-- What a text lacks to end its last line. -/
def gap (text : Text) : Nat := if text ≠ [] ∧ text.getLast? ≠ some '\n' then 1 else 0

theorem gap_le_one (text : Text) : gap text ≤ 1 := by
  unfold gap
  split <;> simp

theorem flatBlocksText_eq (blocks : List (ReportBlock N)) :
    flatBlocksText blocks = joined (blocks.map flatText) := by
  rw [flatBlocksText, joined, foldl_map]

theorem length_appendBlockText :
    (appendBlockText body text).length = body.length + gap body + text.length := by
  unfold appendBlockText gap
  split
  · rw [length_append, length_cons]
    omega
  · rw [length_append]
    rfl

/-- A text that has been appended decides whether the last line has ended. -/
theorem gap_appendBlockText : gap (appendBlockText body text) = gap text := by
  cases text with
  | nil =>
    unfold appendBlockText
    split
    next => simp [gap]
    next ended => rw [append_nil, gap, if_neg ended]; rfl
  | cons =>
    unfold appendBlockText
    split <;> simp [gap, getLast?_append, getLast?_cons_cons]

/-- How long joined texts are. -/
theorem length_joined (texts : List Text) :
    (joined texts).length + gap (joined texts) =
      (texts.map fun text => text.length + gap text).sum := by
  unfold joined
  induction texts using reverseRecOn with
  | nil => rfl
  | append_singleton _ _ ih =>
    rw [foldl_append, foldl_cons, foldl_nil, length_appendBlockText,
      gap_appendBlockText, ih, map_append, sum_append]
    simp [Nat.add_assoc]

/-- Texts that end their lines are joined as they are. -/
theorem joined_eq_flatten {texts : List Text}
    (ended : ∀ first second, texts = first ++ second → second ≠ [] → Text.Ended first.flatten) :
    joined texts = texts.flatten := by
  induction texts using reverseRecOn with
  | nil => rfl
  | append_singleton texts text ih =>
    have before : joined texts = texts.flatten := ih fun first second whole some =>
      ended first (second ++ [text]) (by rw [whole, append_assoc]) (by simp)
    have here := ended texts [text] rfl (cons_ne_nil _ _)
    rw [joined, foldl_append, ← joined, before, foldl_cons, foldl_nil,
      appendBlockText, if_neg, flatten_append, flatten_singleton]
    rintro ⟨some, open_⟩
    exact here.elim some open_

/-! ## Exactly when the text is the canonical body -/

theorem joined_canonical (body : Text) :
    joined ((splitBody N body).map (canonical (N := N))) = canonicalBody N body := by
  refine joined_eq_flatten fun first second whole some => ?_
  rw [← splitBody_canonicalBody] at whole
  exact ended_of_splitBody whole some

/-- **A prose fence is what seeding loses.** -/
theorem joined_storedText_iff (body : Text) :
    joined ((splitBody N body).map (storedText N)) = canonicalBody N body ↔
      ∀ slice ∈ splitBody N body, ¬ ProseFence N slice := by
  constructor
  · -- a slice that is a prose fence makes the text too short
    intro same slice inside isProse
    rw [← joined_canonical] at same
    have lengths := congrArg (fun text => text.length + gap text) same
    simp only [length_joined, map_map] at lengths
    have shorter : ∀ slice, ProseFence N slice →
        (storedText N slice).length + gap (storedText N slice) <
          (canonical (N := N) slice).length + gap (canonical (N := N) slice) := by
      intro slice isProse
      have text := length_storedText isProse
      have line := gap_le_one (storedText N slice)
      omega
    refine absurd lengths (Nat.ne_of_lt (sum_lt_sum _ _ ?_ ⟨slice, inside, shorter slice isProse⟩))
    intro other _
    by_cases prose : ProseFence N other
    · exact (shorter other prose).le
    · simp [storedText_canonical prose]
  · intro noProse
    rw [map_congr_left fun slice inside => storedText_canonical (noProse slice inside),
      joined_canonical]

/-! ## A canonical slice reads as the same block -/

section Again

variable {blocks : List (ReportBlock N)}

theorem parseFence_canonical (slice : Text) :
    (parseFence (N := N) (canonical (N := N) slice)) = parseFence slice := by
  unfold canonical
  split
  next read =>
    obtain ⟨validKind, validPayload⟩ := parseFence_valid read
    rw [parseFence_renderFence validKind validPayload, read]
  next => rfl

theorem canonical_canonical (slice : Text) :
    canonical (N := N) (canonical (N := N) slice) = canonical (N := N) slice := by
  have again := parseFence_canonical (N := N) slice
  cases read : (parseFence (N := N) slice) with
  | none =>
    have same : canonical (N := N) slice = slice := by rw [canonical, read]
    rw [same, same]
  | some =>
    rw [read] at again
    rw [canonical, again, canonical, read]

theorem selfRead_blockOf (noProse : ¬ ProseFence N slice) (id : Text) (rev : UInt32) :
    SelfRead (blockOf (N := N) slice id rev) := by
  have text : flatText (blockOf (N := N) slice id rev) = canonical (N := N) slice := by
    rw [flatText_blockOf, storedText_canonical noProse]
  refine ⟨?_, ?_⟩
  · rw [text, blockOf_id, blockOf_rev]
    cases read : (parseFence (N := N) slice) with
    | none => rw [canonical, read]
    | some => rw [blockOf, blockOf, parseFence_canonical, read]
  · rw [text, canonical_canonical]
    cases read : (parseFence (N := N) slice) with
    | none =>
      rw [canonical, blockOf, read]
      rfl
    | some fence =>
      have isData : (blockOf (N := N) slice id rev).kind ≠ kindProse := by
        rw [blockOf, read]
        exact fun isProse => noProse ⟨fence, read, isProse⟩
      rw [comparableFlat, if_neg isData, text]

theorem Aligned.map_flatText (aligned : Aligned old reserved slices blocks) :
    blocks.map flatText = slices.map (storedText N) := by
  obtain ⟨each, -⟩ := aligned
  induction each with
  | nil => rfl
  | cons origin _ ih =>
    rw [map_cons, map_cons, ih, origin.eq_blockOf, flatText_blockOf]

/-- The texts of the blocks that are put in place of a body. -/
theorem flatBlocksText_aligned (aligned : alignBody old body = .ok blocks) :
    flatBlocksText (blocks.map storedBlock) = joined ((splitBody N body).map (storedText N)) := by
  have texts := (reassign_aligned (orExhausted_eq_ok aligned)).map_flatText
  rw [flatBlocksText_eq, map_map, ← texts]
  congr 1
  exact map_congr_left fun block _ => storedBlock_flatText block

/-- The canonical body realigns the blocks to themselves. -/
theorem alignBody_canonicalBody (aligned : alignBody old body = .ok blocks)
    (noProse : ∀ slice ∈ splitBody N body, ¬ ProseFence N slice) :
    alignBody blocks (canonicalBody N body) = .ok blocks := by
  have each := reassign_aligned (orExhausted_eq_ok aligned)
  have texts : splitBody N (canonicalBody N body) = blocks.map flatText := by
    rw [splitBody_canonicalBody, each.map_flatText]
    exact map_congr_left fun slice inside => (storedText_canonical (noProse slice inside)).symm
  have settled : ∀ block ∈ blocks, SelfRead block := by
    intro block known
    obtain ⟨slice, inside, origin⟩ := each.exists_slice known
    rw [origin.eq_blockOf]
    exact selfRead_blockOf (noProse slice inside) _ _
  rw [alignBody, texts, reassignIds_self each.distinct settled]
  rfl

end Again

/-! ## Documents written from a body -/

/-- Documents of any runs: a seed or a migrated legacy document, then successful operations
whose data content is as it is rendered.  Bodies and slices are any texts. -/
inductive Written (N : Type) [JsonReader N] : ReportDoc → Prop
  | payload {payload : TrackReportPayload N} {doc : ReportDoc}
    (made : fromPayload payload = .ok doc) : Written N doc
  | legacy {summary body : Text} {docRev : Option Nat} {hints : Option (List (ReportBlock N))}
    {doc : ReportDoc} {changed : Bool}
    (made : ensureBlockObjects ⟨summary, docRev, .legacy body⟩ hints = .ok (doc, changed)) :
    Written N doc
  | exact {summary : Text} {blocks : List (ReportBlock N)} {doc : ReportDoc}
    (supported : ∀ block ∈ blocks, block.kind = kindProse ∨ block.kind ∈ dataKinds)
    (objects : ∀ block ∈ blocks, block.payload.isObject = true)
    (readable : ∀ block ∈ blocks, block.kind ≠ kindProse → Json.Valid recursionLimit block.payload)
    (made : ReportDoc.fromBlocksExact summary blocks = .ok doc) : Written N doc
  | step {op : Op N} {doc doc' : ReportDoc} (written : Written N doc) (rendered : op.Rendered)
    (done : op.run doc = .ok doc') : Written N doc'

/-- The document has just been written from the summary and the body. -/
inductive WrittenFrom (N : Type) [JsonReader N] : ReportDoc → Text → Text → Prop
  | payload {payload : TrackReportPayload N} {doc : ReportDoc}
    (made : fromPayload payload = .ok doc) :
    WrittenFrom N doc payload.summary payload.body
  | legacy {summary body : Text} {docRev : Option Nat} {hints : Option (List (ReportBlock N))}
    {doc : ReportDoc} {changed : Bool}
    (made : ensureBlockObjects ⟨summary, docRev, .legacy body⟩ hints = .ok (doc, changed)) :
    WrittenFrom N doc summary body
  | update {doc doc' : ReportDoc} {summary body : Text} (written : Written N doc)
    (done : doc.update N summary body = .ok doc') : WrittenFrom N doc' summary body

/-- The document projects the canonical body, and an update to that body keeps every block
and their order. -/
def Lossless (N : Type) [JsonReader N] (doc : ReportDoc) (summary body : Text) : Prop :=
  doc.project = .ok (summary, canonicalBody N body) ∧
    ∀ newSummary, ∃ (doc' : ReportDoc) (blocks : List (ReportBlock N)),
      doc.update N newSummary (canonicalBody N body) = .ok doc' ∧
        doc.blocksSnapshot = .ok blocks ∧ doc'.blocksSnapshot = .ok blocks

section Documents

variable {doc : ReportDoc} {body : Text} {blocks : List (ReportBlock N)}

theorem ensureBlockObjects_holds
    (made : ensureBlockObjects ⟨summary, docRev, .legacy body⟩ hints = .ok (doc, changed)) :
    doc.summary = summary ∧ ∃ blocks : List (ReportBlock N),
      alignBody (hints.getD []) body = .ok blocks ∧ doc.Holds (blocks.map storedBlock) := by
  obtain ⟨blocks, aligned, made⟩ := bind_eq_ok.mp made
  obtain ⟨layout, written, represents⟩ := writeBlocksLayout_stored (alignBody_stored aligned)
  rw [written] at made
  cases made
  exact ⟨rfl, blocks, aligned, layout, rfl, represents⟩

theorem Written.holds (written : Written N doc) :
    ∃ blocks : List (ReportBlock N), doc.Holds blocks := by
  induction written with
  | payload made =>
    obtain ⟨-, _, -, holds⟩ := fromPayload_holds made
    exact ⟨_, holds⟩
  | legacy made =>
    obtain ⟨-, _, -, holds⟩ := ensureBlockObjects_holds made
    exact ⟨_, holds⟩
  | exact supported objects readable made =>
    exact ⟨_, fromBlocksExact_holds supported objects readable made⟩
  | step _ rendered done ih =>
    obtain ⟨_, holds⟩ := ih
    obtain ⟨_, held, -⟩ := Op.simulates holds rendered done
    exact ⟨_, held⟩

/-- An update writes the blocks that the body aligns to. -/
theorem ReportDoc.Holds.update_ok (holds : doc.Holds blocks) (summary : Text)
    (found : alignBody blocks body = .ok aligned) :
    ∃ doc', doc.update N summary body = .ok doc' ∧ doc'.Holds (aligned.map storedBlock) ∧
      doc'.summary = summary :=
  (holds.setSummary summary).rewrite_ok found (alignBody_stored found)

/-- What was just written from a body is the list that the body aligns to. -/
theorem WrittenFrom.holds (written : WrittenFrom N doc summary body) :
    doc.summary = summary ∧ ∃ old blocks : List (ReportBlock N),
      alignBody old body = .ok blocks ∧ doc.Holds (blocks.map storedBlock) := by
  cases written with
  | payload made =>
    obtain ⟨same, blocks, aligned, holds⟩ := fromPayload_holds made
    exact ⟨same, _, blocks, aligned, holds⟩
  | legacy made =>
    obtain ⟨same, blocks, aligned, holds⟩ := ensureBlockObjects_holds made
    exact ⟨same, _, blocks, aligned, holds⟩
  | update written done =>
    obtain ⟨old, holds⟩ := written.holds
    obtain ⟨_, same, rest⟩ := bind_eq_ok.mp done
    cases ((holds.setSummary summary).blocksSnapshot).symm.trans same
    obtain ⟨blocks, aligned, -⟩ := bind_eq_ok.mp rest
    obtain ⟨_, updated, held, named⟩ := holds.update_ok summary aligned
    cases updated.symm.trans done
    exact ⟨named, old, blocks, aligned, held⟩

theorem noProseFence_iff : NoProseFence N slices ↔ ∀ slice ∈ slices, ¬ ProseFence N slice := by
  constructor
  · rintro noProse slice inside ⟨fence, read, isProse⟩
    exact noProse slice inside fence read isProse
  · intro noProse slice inside fence read isProse
    exact noProse slice inside ⟨fence, read, isProse⟩

/-- **Exactly the bodies without a prose fence are kept.** -/
theorem WrittenFrom.lossless_iff (written : WrittenFrom N doc summary body) :
    Lossless N doc summary body ↔ NoProseFence N (splitBody N body) := by
  obtain ⟨named, _, blocks, aligned, holds⟩ := written.holds
  have projected := holds.project
  rw [named, flatBlocksText_aligned aligned] at projected
  rw [noProseFence_iff]
  constructor
  · rintro ⟨same, -⟩
    rw [projected] at same
    exact (joined_storedText_iff body).mp (Prod.mk.inj (Except.ok.inj same)).2
  · intro noProse
    refine ⟨by rw [projected, (joined_storedText_iff body).mpr noProse], fun newSummary => ?_⟩
    have sound : Sound blocks := (alignBody_keeps
      (makes_fits fun _ : True => noProseFence_iff.mpr noProse) aligned).sound trivial
    rw [map_storedBlock sound] at holds
    obtain ⟨doc', updated, held, -⟩ :=
      holds.update_ok newSummary (alignBody_canonicalBody aligned noProse)
    rw [map_storedBlock sound] at held
    exact ⟨doc', blocks, updated, holds.blocksSnapshot, held.blocksSnapshot⟩

theorem ensureBlockObjects_ok {hints : Option (List (ReportBlock N))}
    (room : ((hints.getD []).map ReportBlock.id).toFinset.card + (splitBody N body).length <
      65536) :
    ∃ doc, ensureBlockObjects ⟨summary, docRev, .legacy body⟩ hints = .ok (doc, true) := by
  obtain ⟨blocks, aligned⟩ := alignBody_ok room
  obtain ⟨layout, written, -⟩ := writeBlocksLayout_stored (alignBody_stored aligned)
  refine ⟨⟨summary, docRev, .layout layout⟩, bind_eq_ok.mpr ⟨blocks, aligned, ?_⟩⟩
  rw [written]
  rfl

/-- **Seeding and rewriting lose nothing but prose fences.**  The slices of a body are the
body in parts.  While ids do not run out, a payload seeds a document, a legacy document is
migrated, and a document of any run is updated.  Each of them projects the body with its
fences in canonical form, and stays as it is when that is written again, if and only if
no slice of the body is a fence of the kind of prose. -/
theorem written_lossless (N : Type) [JsonReader N] : (∀ body, (splitBody N body).flatten = body) ∧
    (∀ payload : TrackReportPayload N,
      ((payload.blocks.getD []).map ReportBlock.id).toFinset.card +
        (splitBody N payload.body).length < 65536 →
      ∃ doc, fromPayload payload = .ok doc) ∧
    (∀ (summary body : Text) (docRev : Option Nat) (hints : Option (List (ReportBlock N))),
      ((hints.getD []).map ReportBlock.id).toFinset.card + (splitBody N body).length < 65536 →
      ∃ doc, ensureBlockObjects ⟨summary, docRev, .legacy body⟩ hints = .ok (doc, true)) ∧
    (∀ (doc : ReportDoc) (summary body : Text), Written N doc →
      ∃ blocks : List (ReportBlock N), doc.blocksSnapshot = .ok blocks ∧
        ((blocks.map ReportBlock.id).toFinset.card + (splitBody N body).length < 65536 →
          ∃ doc', doc.update N summary body = .ok doc')) ∧
    ∀ (doc : ReportDoc) (summary body : Text), WrittenFrom N doc summary body →
      (Lossless N doc summary body ↔ NoProseFence N (splitBody N body)) := by
  refine ⟨flatten_splitBody N, fun payload room => fromPayload_ok room,
    fun summary body docRev hints room => ensureBlockObjects_ok room,
    fun doc summary body written => ?_, fun doc summary body written => written.lossless_iff⟩
  obtain ⟨blocks, holds⟩ := written.holds
  refine ⟨blocks, holds.blocksSnapshot, fun room => ?_⟩
  obtain ⟨_, found⟩ := alignBody_ok room
  obtain ⟨doc', updated, -⟩ := holds.update_ok summary found
  exact ⟨doc', updated⟩

end Documents

/-! ## A body with a table and one with a prose fence -/

/-- A table whose payload is not in canonical form. -/
def tableFence : Text := "```neige-block table\n\x7b \x7d\n```\n".toList

def tableBody : Text := "# A\n".toList ++ tableFence ++ "tail".toList

theorem splitBody_tableBody :
    splitBody NumberToken tableBody = ["# A\n".toList, tableFence, "tail".toList] := by
  have lines : Text.lines tableBody = "# A\n".toList :: "```neige-block table\n".toList ::
      (["\x7b \x7d\n".toList] ++ "```\n".toList :: ["tail".toList]) := by decide
  have fence : opens (lineContent "```neige-block table\n".toList) = some ('\x60', 3, true) := by
    decide
  have reads : Reads NumberToken (Text.lines tableBody) [lineToken "# A\n".toList,
      fenceToken NumberToken true tableFence, lineToken "tail".toList] := by
    rw [lines]
    exact .line (by decide) (.closed fence (by decide) (by decide) (.line (by decide) .nil))
  rw [splitBody_eq reads (by decide)]
  decide +kernel

theorem tableBody_noProse : NoProseFence NumberToken (splitBody NumberToken tableBody) := by
  have each : ∀ slice ∈ ["# A\n".toList, tableFence, "tail".toList],
      ((parseFence slice : Option (NonProseFence NumberToken)).all
        fun fence => fence.kind ≠ kindProse) = true := by decide +kernel
  intro slice inside fence read
  rw [splitBody_tableBody] at inside
  have kind := each slice inside
  rw [read] at kind
  simpa using kind

theorem written_lossless_table :
    ∃ doc, fromPayload (N := NumberToken) ⟨[], tableBody, none⟩ = .ok doc ∧
      Lossless NumberToken doc [] tableBody := by
  obtain ⟨-, seeds, -, -, lossless⟩ := written_lossless NumberToken
  obtain ⟨doc, made⟩ := seeds ⟨[], tableBody, none⟩ (by rw [splitBody_tableBody]; decide)
  exact ⟨doc, made, (lossless doc [] tableBody (.payload made)).mpr tableBody_noProse⟩

/-- A fence of the kind of prose, in canonical form. -/
def proseFence : Text := "```neige-block prose\n\x7b\n  \"note\": \"kept\"\n\x7d\n```\n".toList

theorem splitBody_proseFence : splitBody NumberToken proseFence = [proseFence] := by
  have form : canonical (N := NumberToken) proseFence = proseFence := by decide +kernel
  obtain ⟨fence, parsed⟩ : ∃ fence : NonProseFence NumberToken,
      parseFence proseFence = some fence :=
    Option.isSome_iff_exists.mp (by decide +kernel)
  have reads : Reads NumberToken (Text.lines (canonical (N := NumberToken) proseFence ++ [])) _ :=
    Reads.canonical parsed .nil
  rw [form, append_nil] at reads
  exact splitBody_eq reads (by decide)

/-- The payload of a prose fence is lost: the body comes back empty. -/
theorem proseFence_lost : ∃ doc,
    fromPayload (N := NumberToken) ⟨[], proseFence, none⟩ = .ok doc ∧
      doc.project = .ok ([], []) ∧ canonicalBody NumberToken proseFence = proseFence := by
  obtain ⟨doc, made⟩ : ∃ doc, fromPayload (N := NumberToken) ⟨[], proseFence, none⟩ =
      .ok doc := fromPayload_ok (by rw [splitBody_proseFence]; decide)
  obtain ⟨named, _, _, aligned, holds⟩ := (WrittenFrom.payload made).holds
  refine ⟨doc, made, ?_, ?_⟩
  · rw [holds.project, named, flatBlocksText_aligned aligned, splitBody_proseFence]
    decide +kernel
  · rw [canonicalBody, splitBody_proseFence]
    decide +kernel

end NeigeCalm.Report
