import NeigeCalm.Library.OrderedMap
import NeigeCalm.Report.Align
import NeigeCalm.Report.Scan

/-!
# The report document

The document keeps its blocks in three places: a map from ids to entries, each entry
with its text, and a list of ids for their order.  Every operation edits these in place
and only where something changed.  One replica is an exact store of maps, lists and
texts; the fields have their types, so that only the errors of well-typed documents are
left.

`Layout.writeExact blocks` is a layout that stores a list of blocks; that reads give a stored list
back, and operations the layouts of the lists they should give, is proved in `Report.Storage`.
-/

namespace NeigeCalm.Report

open Library

variable {N : Type} [JsonReader N]

/-! ## Layout -/

/-- The entry of a block.  The stored revision is any unsigned integer. -/
structure Entry where
  kind : Text
  rev : Nat
  text : Text
deriving DecidableEq

structure Layout where
  blocks : Std.ExtTreeMap Text Entry
  order : List Text

/-- The body of a document: the text of a legacy document, or the layout of blocks. -/
inductive Body where
  | legacy (body : Text)
  | layout (layout : Layout)

structure ReportDoc where
  summary : Text
  docRev : Option Nat
  body : Body

/-- The report payload: what the document is seeded from. -/
structure TrackReportPayload (N : Type) where
  summary : Text
  body : Text
  blocks : Option (List (ReportBlock N))

/-! ## Errors -/

inductive DocError where
  | duplicateExactId (id : Text)
  | duplicateOrderId (id : Text)
  | lengthMismatch (mapLen orderLen : Nat)
  | noEntry (id : Text)
  | revTooLarge (id : Text) (rev : Nat)
  | notFence (id kind : Text)
  | fenceKind (id kind found : Text)
  | noBlocksMap
  | noOrder
  | notFound (id : Text)
  | contentNotFence (kind : Text)
  | contentKind (found kind : Text)
  | moveOutOfRange (index len : Nat)
  | survivorMissing
  | spanOutOfRange (start stop len : Nat)
  | membersOutside (members : List Nat) (start stop : Nat)
  | docRevOverflow
  | idsExhausted
deriving DecidableEq

namespace DocError

def ofNat (n : Nat) : Text := (Nat.repr n).toList

def span (start stop : Nat) : Text := ofNat start ++ "..".toList ++ ofNat stop

def message : DocError → Text
  | duplicateExactId id =>
    "duplicate block id ".toList ++ id ++ " in exact report snapshot".toList
  | duplicateOrderId id =>
    "malformed report doc: duplicate id ".toList ++ id ++ " in order".toList
  | lengthMismatch mapLen orderLen =>
    "malformed report doc: blocks map has ".toList ++ ofNat mapLen ++
      " entries but order lists ".toList ++ ofNat orderLen
  | noEntry id => "malformed report doc: order id ".toList ++ id ++ " has no blocks entry".toList
  | revTooLarge id rev =>
    "malformed report doc: block ".toList ++ id ++ " rev ".toList ++ ofNat rev ++
      " exceeds u32".toList
  | notFence id kind =>
    "malformed report doc: block ".toList ++ id ++ " (kind ".toList ++ kind ++
      ") text is not a well-formed neige-block fence".toList
  | fenceKind id kind found =>
    "malformed report doc: block ".toList ++ id ++ " kind ".toList ++ kind ++
      " does not match its fence kind ".toList ++ found
  | noBlocksMap => "doc invariant: blocks map must exist (run ensure_blocks_layout)".toList
  | noOrder => "malformed report doc: blocks map present but order list missing".toList
  | notFound id => "block ".toList ++ id ++ " not found".toList
  | contentNotFence kind =>
    ("doc invariant: non-prose block content must be a canonical neige-block fence " ++
      "(kind ").toList ++ kind ++ ")".toList
  | contentKind found kind =>
    "doc invariant: fence kind ".toList ++ found ++ " does not match block kind ".toList ++ kind
  | moveOutOfRange index len =>
    "move_block: index ".toList ++ ofNat index ++ " out of range (len ".toList ++ ofNat len ++
      ")".toList
  | survivorMissing => "doc invariant: surviving block entry exists".toList
  | spanOutOfRange start stop len =>
    "replace_section_members: ".toList ++ span start stop ++ " out of range (len ".toList ++
      ofNat len ++ ")".toList
  | membersOutside members start stop =>
    "replace_section_members: members [".toList ++
      List.intercalate ", ".toList (members.map ofNat) ++ "] outside ".toList ++ span start stop
  | docRevOverflow => "doc_rev overflow".toList
  | idsExhausted => "a report cannot contain more than 65,536 distinct block ids".toList

end DocError

/-- Minting gives up only by a panic. -/
def orExhausted {α : Type} : Option α → Except DocError α
  | some value => .ok value
  | none => .error .idsExhausted

/-! ## Reading -/

namespace Layout

/-- The first id of a list that was there before. -/
def firstDuplicate : List Text → List Text → Option Text
  | _, [] => none
  | seen, id :: rest => if id ∈ seen then some id else firstDuplicate (id :: seen) rest

/-- The block stored at an id. -/
def readBlock (layout : Layout) (id : Text) : Except DocError (ReportBlock N) :=
  match layout.blocks[id]? with
  | none => .error (.noEntry id)
  | some entry =>
    if entry.rev < UInt32.size then
      let rev := UInt32.ofNat entry.rev
      if entry.kind = kindProse then
        .ok { id, kind := entry.kind, rev, payload := prosePayload entry.text }
      else match (parseFence (N := N) entry.text) with
        | none => .error (.notFence id entry.kind)
        | some fence =>
          if fence.kind = entry.kind then
            .ok { id, kind := entry.kind, rev, payload := fence.payload }
          else .error (.fenceKind id entry.kind fence.kind)
    else .error (.revTooLarge id entry.rev)

def snapshot (layout : Layout) : Except DocError (List (ReportBlock N)) :=
  match firstDuplicate [] layout.order with
  | some id => .error (.duplicateOrderId id)
  | none =>
    if layout.blocks.size = layout.order.length then layout.order.mapM layout.readBlock
    else .error (.lengthMismatch layout.blocks.size layout.order.length)

/-- The texts in their order. -/
def flat (layout : Layout) : Except DocError Text :=
  layout.order.foldlM (fun body id =>
    match layout.blocks[id]? with
    | none => .error (.noEntry id)
    | some entry => .ok (appendBlockText body entry.text)) []

end Layout

namespace ReportDoc

/-- The snapshot of the blocks in their order; a legacy document has none. -/
def blocksSnapshot (doc : ReportDoc) : Except DocError (List (ReportBlock N)) :=
  match doc.body with
  | .legacy _ => .ok []
  | .layout layout => layout.snapshot

/-- Summary and body. -/
def project (doc : ReportDoc) : Except DocError (Text × Text) :=
  match doc.body with
  | .legacy body => .ok (doc.summary, body)
  | .layout layout => layout.flat.map fun body => (doc.summary, body)

def setSummary (doc : ReportDoc) (summary : Text) : ReportDoc := { doc with summary }

/-- A legacy document reads as zero. -/
def rev (doc : ReportDoc) : Nat := doc.docRev.getD 0

def incrementDocRev (doc : ReportDoc) : Except DocError ReportDoc :=
  if doc.rev + 1 < 2 ^ 64 then .ok { doc with docRev := some (doc.rev + 1) }
  else .error .docRevOverflow

end ReportDoc

/-! ## Operations on one block -/

namespace Layout

def insertBlockEntry (layout : Layout) (id kind : Text) (rev : UInt32) (content : Text) : Layout :=
  { layout with blocks := layout.blocks.insert id ⟨kind, rev.toNat, content⟩ }

/-- Data content must be a fence of its kind. -/
def checkContent (N : Type) [JsonReader N] (kind content : Text) : Except DocError Unit :=
  if kind = kindProse then .ok ()
  else match (parseFence (N := N) content) with
    | none => .error (.contentNotFence kind)
    | some fence =>
      if fence.kind = kind then .ok () else .error (.contentKind fence.kind kind)

/-- A block replaced: the same content changes nothing. -/
def replaceBlock (layout : Layout) (id kind content : Text) :
    Except DocError (Layout × Text × UInt32) :=
  match layout.blocks[id]? with
  | none => .error (.notFound id)
  | some entry =>
    if entry.rev < UInt32.size then
      let rev := UInt32.ofNat entry.rev
      if entry.kind = kind ∧ entry.text = content then .ok (layout, id, rev)
      else .ok (layout.insertBlockEntry id kind (nextRev rev) content, id, nextRev rev)
    else .error (.revTooLarge id entry.rev)

/-- A fresh block at the end. -/
def appendBlock (layout : Layout) (kind content : Text) :
    Except DocError (Layout × Text × UInt32) := do
  let index := layout.order.length
  let id ← orExhausted (mintId content index layout.blocks.keys)
  let layout := layout.insertBlockEntry id kind 1 content
  return ({ layout with order := layout.order.insertIdx index id }, id, 1)

def upsertBlock (layout : Layout) (id : Option Text) (kind content : Text) :
    Except DocError (Layout × Text × UInt32) :=
  match id with
  | some id => layout.replaceBlock id kind content
  | none => layout.appendBlock kind content

/-- A block moved to an index of the order. -/
def moveBlock (layout : Layout) (id : Text) (toIndex : Nat) : Except DocError Layout :=
  match layout.order.findIdx? (· = id) with
  | none => .error (.notFound id)
  | some from_ =>
    if toIndex < layout.order.length then
      if from_ = toIndex then .ok layout
      else .ok { layout with order := (layout.order.eraseIdx from_).insertIdx toIndex id }
    else .error (.moveOutOfRange toIndex layout.order.length)

def deleteBlock (layout : Layout) (id : Text) : Except DocError Layout :=
  match layout.order.findIdx? (· = id) with
  | none => .error (.notFound id)
  | some index =>
    .ok { blocks := layout.blocks.erase id, order := layout.order.eraseIdx index }

/-! ## Rewrites -/

/-- One aligned block: an entry that survives is edited where it changed. -/
def applyBlock (current : List (ReportBlock N)) (blocks : Std.ExtTreeMap Text Entry)
    (block : ReportBlock N) : Except DocError (Std.ExtTreeMap Text Entry) :=
  let content := flatText block
  match current.find? fun old => old.id = block.id with
  | some old =>
    match blocks[block.id]? with
    | none => .error .survivorMissing
    | some entry =>
      .ok (blocks.insert block.id
        { kind := if old.kind ≠ block.kind then block.kind else entry.kind
          rev := if old.rev ≠ block.rev then block.rev.toNat else entry.rev
          text := if flatText old ≠ content then content else entry.text })
  | none => .ok (blocks.insert block.id ⟨block.kind, block.rev.toNat, content⟩)

/-- The aligned list put in place of the current one. -/
def applyAlignedBlocks (layout : Layout) (current aligned : List (ReportBlock N)) :
    Except DocError Layout := do
  let keep := aligned.map ReportBlock.id
  let remaining := current.foldl (fun (blocks : Std.ExtTreeMap Text Entry) old =>
    if old.id ∈ keep then blocks else blocks.erase old.id) layout.blocks
  let blocks ← aligned.foldlM (applyBlock current) remaining
  return { blocks, order := if layout.order = keep then layout.order else keep }

/-- A new layout from blocks; a repeated id is minted anew. -/
def writeBlocks : Nat → List (ReportBlock N) → List Text → List Text → Layout →
    Except DocError Layout
  | _, [], _, _, layout => .ok layout
  | index, block :: rest, used, seen, layout => do
    let content := flatText block
    if block.id ∉ seen then
      let layout := layout.insertBlockEntry block.id block.kind block.rev content
      writeBlocks (index + 1) rest used (block.id :: seen)
        { layout with order := layout.order.insertIdx index block.id }
    else
      let minted ← orExhausted (mintId content index used)
      let layout := layout.insertBlockEntry minted block.kind block.rev content
      writeBlocks (index + 1) rest (minted :: used) (minted :: seen)
        { layout with order := layout.order.insertIdx index minted }

def writeBlocksLayout (blocks : List (ReportBlock N)) : Except DocError Layout :=
  writeBlocks 0 blocks (blocks.map ReportBlock.id) [] ⟨∅, []⟩

/-- A new layout from blocks whose ids are written as they are. -/
def writeExact (blocks : List (ReportBlock N)) : Layout :=
  blocks.zipIdx.foldl (fun layout (block, index) =>
    let layout := layout.insertBlockEntry block.id block.kind block.rev (flatText block)
    { layout with order := layout.order.insertIdx index block.id }) ⟨∅, []⟩

end Layout

/-! ## The lists that rewrites put in place -/

/-- The body's slices in place of all blocks. -/
def alignBody (current : List (ReportBlock N)) (body : Text) :
    Except DocError (List (ReportBlock N)) :=
  orExhausted (reassignIds current (splitBody N body))

def alignHints (current : List (ReportBlock N)) (slices : List Text)
    (hints : List (Option Text)) : Except DocError (List (ReportBlock N)) :=
  orExhausted (reassignIdsWithHints current slices hints)

/-- The slot of a kept block: right after the nearest rewritten block before it that survives
(`anchor`), else after the first block of the result, or in front when no rewritten block
came before it. -/
def keptSlot (count : Nat) : Option Nat → Bool → Nat
  | some anchor, _ => anchor + 1
  | none, true => min count 1
  | none, false => 0

/-- The kept blocks, each with its slot. -/
def keptSlots (rewritten : ReportBlock N → Bool) (replaced : List (ReportBlock N)) :
    Option Nat → Bool → List (ReportBlock N) → List (Nat × ReportBlock N)
  | _, _, [] => []
  | anchor, afterRewritten, block :: rest =>
    if rewritten block then
      let anchor := (replaced.findIdx? fun other => other.id = block.id).or anchor
      keptSlots rewritten replaced anchor true rest
    else
      (keptSlot replaced.length anchor afterRewritten, block) ::
        keptSlots rewritten replaced anchor afterRewritten rest

/-- The kept blocks in their slots: those of slot `s` right before `replaced[s]`. -/
def fillSlots (slots : List (Nat × ReportBlock N)) (replaced : List (ReportBlock N)) :
    List (ReportBlock N) :=
  (List.range (replaced.length + 1)).flatMap fun slot =>
    (slots.filter (·.1 = slot)).map Prod.snd ++ (replaced[slot]?).toList

/-- The slices in place of the rewritten blocks, the others kept as they are. -/
def alignKeeping (current : List (ReportBlock N)) (slices : List Text)
    (hints : List (Option Text)) (rewritten : ReportBlock N → Bool) :
    Except DocError (List (ReportBlock N)) := do
  let old := current.filter rewritten
  let kept := current.filter fun block => !rewritten block
  let replaced ← orExhausted
    (reassignIdsWithHintsReserving old slices hints (kept.map ReportBlock.id))
  return fillSlots (keptSlots rewritten replaced none false current) replaced

/-- The body's slices, aligned onto the prose blocks only. -/
def alignDropping (current : List (ReportBlock N)) (body : Text) :
    Except DocError (List (ReportBlock N)) :=
  let prose := current.filter fun block => block.kind = kindProse
  let data := current.filter fun block => !decide (block.kind = kindProse)
  orExhausted (reassignIdsWithHintsReserving prose (splitBody N body) [] (data.map ReportBlock.id))

/-- The slices in place of the members of a span; its other blocks come after them. -/
def alignSection (current : List (ReportBlock N)) (start stop : Nat) (members : List Nat)
    (slices : List Text) (hints : List (Option Text)) :
    Except DocError (List (ReportBlock N) × List (ReportBlock N)) :=
  if ¬ (start ≤ stop ∧ stop ≤ current.length) then
    .error (.spanOutOfRange start stop current.length)
  else if ¬ (members.all fun index => start ≤ index && index < stop) then
    .error (.membersOutside members start stop)
  else do
    let before := current.take start
    let after := current.drop stop
    let span := List.range' start (stop - start)
    let old := (span.filter (· ∈ members)).filterMap (current[·]?)
    let kept := (span.filter (· ∉ members)).filterMap (current[·]?)
    let replaced ← orExhausted (reassignIdsWithHintsReserving old slices hints
      ((before ++ kept ++ after).map ReportBlock.id))
    return (before ++ replaced ++ kept ++ after, replaced)

/-! ## The document's operations -/

namespace ReportDoc

def fromPayload (payload : TrackReportPayload N) : Except DocError ReportDoc := do
  let blocks ← orExhausted (reassignIds (payload.blocks.getD []) (splitBody N payload.body))
  let layout ← Layout.writeBlocksLayout blocks
  return { summary := payload.summary, docRev := none, body := .layout layout }

def fromBlocksExact (summary : Text) (blocks : List (ReportBlock N)) : Except DocError ReportDoc :=
  match Layout.firstDuplicate [] (blocks.map ReportBlock.id) with
  | some id => .error (.duplicateExactId id)
  | none => .ok { summary, docRev := none, body := .layout (Layout.writeExact blocks) }

/-- A legacy document gets its layout of blocks. -/
def ensureBlockObjects (doc : ReportDoc) (hintBlocks : Option (List (ReportBlock N))) :
    Except DocError (ReportDoc × Bool) :=
  match doc.body with
  | .layout _ => .ok (doc, false)
  | .legacy body => do
    let blocks ← orExhausted (reassignIds (hintBlocks.getD []) (splitBody N body))
    let layout ← Layout.writeBlocksLayout blocks
    return ({ doc with body := .layout layout }, true)

/-- An operation on the layout; a legacy document must be migrated first. -/
def withLayout (doc : ReportDoc) (missing : DocError) (edit : Layout → Except DocError Layout) :
    Except DocError ReportDoc :=
  match doc.body with
  | .legacy _ => .error missing
  | .layout layout => (edit layout).map fun layout => { doc with body := .layout layout }

/-- Replaces the block `id`, or appends a fresh one; the id and the revision it now has. -/
def upsertBlock (N : Type) [JsonReader N] (doc : ReportDoc) (id : Option Text)
    (kind content : Text) : Except DocError (ReportDoc × Text × UInt32) := do
  Layout.checkContent N kind content
  match doc.body with
  | .legacy _ => .error .noBlocksMap
  | .layout layout =>
    let (layout, id, rev) ← layout.upsertBlock id kind content
    return ({ doc with body := .layout layout }, id, rev)

def moveBlock (doc : ReportDoc) (id : Text) (toIndex : Nat) : Except DocError ReportDoc :=
  doc.withLayout .noOrder fun layout => layout.moveBlock id toIndex

def deleteBlock (doc : ReportDoc) (id : Text) : Except DocError ReportDoc :=
  doc.withLayout .noBlocksMap fun layout => layout.deleteBlock id

def applyAlignedBlocks (doc : ReportDoc) (current aligned : List (ReportBlock N)) :
    Except DocError ReportDoc :=
  doc.withLayout .noBlocksMap fun layout => layout.applyAlignedBlocks current aligned

/-- A rewrite: the current blocks are realigned and the result put in their place. -/
def rewrite (doc : ReportDoc)
    (align : List (ReportBlock N) → Except DocError (List (ReportBlock N))) :
    Except DocError ReportDoc := do
  let current ← doc.blocksSnapshot
  let aligned ← align current
  doc.applyAlignedBlocks current aligned

def update (N : Type) [JsonReader N] (doc : ReportDoc) (newSummary newBody : Text) :
    Except DocError ReportDoc :=
  (doc.setSummary newSummary).rewrite (alignBody (N := N) · newBody)

def updateWithHints (N : Type) [JsonReader N] (doc : ReportDoc) (newSummary : Text)
    (slices : List Text) (hints : List (Option Text)) : Except DocError ReportDoc :=
  (doc.setSummary newSummary).rewrite (alignHints (N := N) · slices hints)

def updateWithHintsKeeping (doc : ReportDoc) (newSummary : Text) (slices : List Text)
    (hints : List (Option Text)) (rewritten : ReportBlock N → Bool) : Except DocError ReportDoc :=
  (doc.setSummary newSummary).rewrite (alignKeeping · slices hints rewritten)

def replaceDroppingDataBlocks (N : Type) [JsonReader N] (doc : ReportDoc)
    (newSummary newBody : Text) : Except DocError ReportDoc :=
  (doc.setSummary newSummary).rewrite (alignDropping (N := N) · newBody)

/-- Also returns the blocks that now stand in the members' place. -/
def replaceSectionMembers (doc : ReportDoc) (start stop : Nat) (members : List Nat)
    (slices : List Text) (hints : List (Option Text)) :
    Except DocError (ReportDoc × List (ReportBlock N)) := do
  let current ← doc.blocksSnapshot
  let (aligned, replaced) ← alignSection current start stop members slices hints
  let doc ← doc.applyAlignedBlocks current aligned
  return (doc, replaced)

end ReportDoc

end NeigeCalm.Report
