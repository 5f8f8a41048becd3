import NeigeCalm.Library.JsonLines

/-!
# Blocks and their fences

A report is a list of blocks: prose, or data of some kind with a JSON payload.
In flat markdown a data block is a fence: an opener line that names the kind, the
payload as canonical JSON, and a closing line.  `parseFence` reads exactly such a
text, `renderFence` writes it, and `canonicalJson` is deterministic: keys in
order, two spaces of indentation, arrays of scalars on one line.

`parseFence_renderFence` is the round trip.  It is proved token by token with the
reading rules of `Library.Json`; what reads a fence's interior is any `JsonReader`.
-/

namespace NeigeCalm.Report

open Library List Option Json Text

variable {N : Type}

/-! ## Blocks -/

def kindProse : Text := "prose".toList
def kindChartCandles : Text := "chart.candles".toList
def kindChartSeries : Text := "chart.series".toList
def kindTable : Text := "table".toList
def kindView : Text := "view".toList
def kindApp : Text := "app".toList
def kindObjective : Text := "objective".toList
def kindTask : Text := "task".toList
def kindPreview : Text := "preview".toList
def kindWindow : Text := "window".toList
def kindHtml : Text := "html".toList

/-- The non-prose kinds a report may contain. -/
def dataKinds : List Text :=
  [kindChartCandles, kindChartSeries, kindTable, kindApp, kindTask, kindPreview, kindView,
    kindWindow, kindHtml, kindObjective]

/-- One addressable block of a report. -/
structure ReportBlock (N : Type) where
  id : Text
  kind : Text
  rev : UInt32
  payload : Json N

/-- The payload of a prose block. -/
def prosePayload (markdown : Text) : Json N := .object [("markdown".toList, .string markdown)]

/-! ## Canonical JSON -/

section Canonical

variable [JsonNumber N]

def pad (indent : Nat) : Text := replicate (2 * indent) ' '

/-- The lines of a broken container. -/
def bodyLines (indent : Nat) (items : List Text) : Text :=
  Json.separated (pad indent) ['\n'] ['\n'] items

/-- Scalars on one line. -/
def inlineItems (items : List Text) : Text := Json.separated [] [' '] [] items

def memberText (member : Text × Text) : Text := quote member.1 ++ [':', ' '] ++ member.2

mutual

def writeValue (indent : Nat) : Json N → Text
  | .object members =>
    if members.isEmpty then ['\x7b', '\x7d']
    else
      let texts := (memberTexts (indent + 1) members).mergeSort fun a b => a.1 ≤ b.1
      ['\x7b', '\n'] ++ bodyLines (indent + 1) (texts.map memberText) ++ pad indent ++ ['\x7d']
  | .array items =>
    if items.isEmpty then ['[', ']']
    else if items.all Json.isScalar then '[' :: inlineItems (items.map Json.scalarText) ++ [']']
    else ['[', '\n'] ++ bodyLines (indent + 1) (itemTexts (indent + 1) items) ++ pad indent ++ [']']
  | scalar => Json.scalarText scalar

def itemTexts (indent : Nat) : List (Json N) → List Text
  | [] => []
  | item :: rest => writeValue indent item :: itemTexts indent rest

def memberTexts (indent : Nat) : List (Text × Json N) → List (Text × Text)
  | [] => []
  | (key, value) :: rest => (key, writeValue indent value) :: memberTexts indent rest

end

/-- Deterministic pretty JSON. -/
def canonicalJson (value : Json N) : Text := writeValue 0 value

/-! ## Canonical JSON reads back -/

/-- A character a value's text can start with: not a space, not the end of an
array, not a backtick. -/
def Leads (c : Char) : Prop := Json.isWhitespace c = false ∧ c ≠ ']' ∧ c ≠ '\x60'

instance : DecidablePred Leads := fun c => by unfold Leads; infer_instance

theorem leads_of_numberStart (start : c = '-' ∨ c.isDigit = true) : Leads c :=
  ⟨not_isWhitespace_of_numberStart start, numberStart_ne start (by decide),
    numberStart_ne start (by decide)⟩

variable {value : Json N}

theorem scalarText_head (scalar : value.isScalar = true) :
    ∃ c rest, scalarText value = c :: rest ∧ Leads c := by
  cases value with
  | null | string => exact ⟨_, _, rfl, by decide⟩
  | bool b => cases b <;> exact ⟨_, _, rfl, by decide⟩
  | number n =>
    obtain ⟨c, rest, written, start⟩ := lexNumber_head (JsonNumber.token n)
    exact ⟨c, rest, written, leads_of_numberStart start⟩
  | array | object => cases scalar

theorem writeValue_scalar (indent : Nat) (scalar : value.isScalar = true) :
    writeValue indent value = scalarText value := by
  cases value <;> first | rfl | cases scalar

theorem writeValue_head (indent : Nat) (value : Json N) :
    ∃ c rest, writeValue indent value = c :: rest ∧ Leads c := by
  by_cases scalar : value.isScalar = true
  · rw [writeValue_scalar indent scalar]
    exact scalarText_head scalar
  cases value with
  | object =>
    rw [writeValue]
    split <;> exact ⟨_, _, rfl, by decide⟩
  | array =>
    rw [writeValue]
    split
    · exact ⟨_, _, rfl, by decide⟩
    · split
      all_goals exact ⟨_, _, rfl, by decide⟩
  | null | bool | string | number => exact absurd rfl scalar

theorem blank_pad (indent : Nat) : Json.Blank (pad indent) := by
  intro c inside
  obtain rfl := eq_of_mem_replicate inside
  rfl

theorem itemTexts_eq_map (indent : Nat) (items : List (Json N)) :
    itemTexts indent items = items.map (writeValue indent) := by
  induction items with
  | nil => rfl
  | cons _ _ ih => rw [itemTexts, ih]; rfl

theorem memberTexts_eq_map (indent : Nat) (members : List (Text × Json N)) :
    memberTexts indent members =
      members.map fun member => (member.1, writeValue indent member.2) := by
  induction members with
  | nil => rfl
  | cons _ _ ih => rw [memberTexts, ih]; rfl

/-- Members in key order are written in their order. -/
theorem mergeSort_memberTexts {members : List (Text × Json N)} (sorted : Json.Sorted members)
    (indent : Nat) :
    (memberTexts indent members).mergeSort (fun a b => a.1 ≤ b.1) = memberTexts indent members := by
  refine mergeSort_of_pairwise ?_
  rw [memberTexts_eq_map, pairwise_map]
  exact sorted.imp fun less => decide_eq_true less.le

/-- The text is read as the value, with fuel for its length. -/
def WritesAs (depth : Nat) (text : Text) (value : Json N) : Prop :=
  ∀ fuel, text.length ≤ fuel → ReadsAs (Json.parseValue fuel depth) text value

theorem writesAs_scalar (scalar : value.isScalar = true) (depth : Nat) :
    WritesAs depth (scalarText value) value := by
  intro fuel enough _ _ space ends
  obtain ⟨_, _, written, -⟩ := scalarText_head scalar
  rw [written, length_cons] at enough
  obtain _ | fuel := fuel
  · omega
  exact parseValue_scalar scalar space ends

/-- The texts between an opening and a closing character, with commas and spaces. -/
def LaidOut (opener close : Char) (texts : List Text) (text : Text) : Prop :=
  ∃ blank lead gap tail after, Json.Blank blank ∧ Json.Blank lead ∧ Json.Blank gap ∧
    Json.Blank (tail ++ after) ∧
      text = opener :: (blank ++ (Json.separated lead gap tail texts ++ (after ++ [close])))

theorem laidOut_bodyLines (indent : Nat) (opener close : Char) (texts : List Text) :
    LaidOut opener close texts
      ([opener, '
'] ++ bodyLines (indent + 1) texts ++ pad indent ++ [close]) :=
  ⟨['
'], pad (indent + 1), ['
'], ['
'], pad indent, .single rfl, blank_pad _, .single rfl,
    Json.Blank.append (.single rfl) (blank_pad _), by simp [bodyLines]⟩

theorem laidOut_nil (opener close : Char) : LaidOut opener close [] [opener, close] :=
  ⟨[], [], [], [], [], .nil, .nil, .nil, .nil, rfl⟩

/-- A container is read from its elements. -/
theorem LaidOut.reads {α : Type} (element : Text → Option (α × Text)) {items : List α}
    {write : α → Text} {opener close : Char} (laid : LaidOut opener close (items.map write) text)
    (enough : text.length ≤ fuel + 1)
    (reads : ∀ item ∈ items, (write item).length ≤ fuel → ReadsAs element (write item) item)
    (starts : ∀ item, ∃ c rest, write item = c :: rest ∧ Json.isWhitespace c = false ∧ c ≠ close)
    (closes : isNumberChar close = false ∧ Json.isWhitespace close = false ∧ close ≠ ',') :
    ∃ inside, text = opener :: inside ∧
      ∀ rest, parseElements element close fuel (inside ++ rest) = some (items, rest) := by
  obtain ⟨blank, lead, gap, tail, after, spaces, leads, gaps, ends, rfl⟩ := laid
  refine ⟨_, rfl, fun rest => ?_⟩
  simp only [length_append, length_cons, length_nil] at enough
  have short := (length_separated lead gap tail (items.map write)).2
  have each : List.Forall₂ (ReadsAs element) (items.map write) items := by
    rw [forall₂_map_left_iff, forall₂_same]
    intro item inside
    have := short _ (mem_map_of_mem inside)
    exact reads item inside (by omega)
  have first : ∀ text ∈ items.map write, ∃ c rest, text = c :: rest ∧
      Json.isWhitespace c = false ∧ c ≠ close := by
    intro text known
    obtain ⟨item, -, rfl⟩ := mem_map.mp known
    exact starts item
  have read : parseElements element close fuel (blank ++ (Json.separated lead gap tail
      (items.map write) ++ (after ++ close :: rest))) = some (items, rest) :=
    parseElements_separated each first leads gaps ends closes spaces (by omega)
  simpa using read

theorem writesAs_array {items : List (Json N)}
    (each : ∀ item ∈ items, ∀ indent, WritesAs depth (writeValue indent item) item) (indent : Nat) :
    WritesAs (depth + 1) (writeValue indent (.array items)) (.array items) := by
  have laid : LaidOut '[' ']' (items.map (writeValue (indent + 1)))
      (writeValue indent (.array items)) := by
    rw [writeValue]
    split
    next empty =>
      obtain rfl := isEmpty_iff.mp empty
      exact laidOut_nil _ _
    split
    next scalars =>
      have same : items.map (writeValue (indent + 1)) = items.map scalarText :=
        map_congr_left fun item inside => writeValue_scalar _ (all_eq_true.mp scalars item inside)
      exact ⟨[], [], [' '], [], [], .nil, .nil, .single rfl, .nil, by rw [same]; rfl⟩
    next =>
      rw [itemTexts_eq_map]
      exact laidOut_bodyLines ..
  intro fuel enough _ rest space _
  obtain _ | fuel := fuel
  · obtain ⟨_, _, written, -⟩ := writeValue_head indent (.array items)
    rw [written] at enough
    cases enough
  obtain ⟨_, written, inside⟩ := laid.reads (parseValue fuel depth) enough
    (fun item known => each item known _ fuel) (fun item => by
      obtain ⟨c, more, head, notSpace, notEnd, -⟩ := writeValue_head (indent + 1) item
      exact ⟨c, more, head, notSpace, notEnd⟩) (by decide)
  rw [written]
  exact parseValue_array space (inside rest)

omit [JsonNumber N] in
theorem readsAs_member {read : Text → Option (Json N × Text)} (reads : ReadsAs read text value)
    (key : Text) : ReadsAs (parseMember read) (memberText (key, text)) (key, value) := by
  intro blank rest space ends
  have inner := reads [' '] rest (.single rfl) ends
  rw [parseMember, skipWhitespace_append space, memberText, quote, cons_append, cons_append,
    cons_append, cons_append, skipWhitespace_cons rfl]
  simp only [append_assoc, cons_append, nil_append, lexString_quote]
  rw [skipWhitespace_cons rfl]
  simpa using inner

theorem writesAs_object {members : List (Text × Json N)} (sorted : Json.Sorted members)
    (each : ∀ member ∈ members, ∀ indent, WritesAs depth (writeValue indent member.2) member.2)
    (indent : Nat) :
    WritesAs (depth + 1) (writeValue indent (.object members)) (.object members) := by
  have laid : LaidOut '{' '}' (members.map fun member =>
      memberText (member.1, writeValue (indent + 1) member.2))
      (writeValue indent (.object members)) := by
    rw [writeValue]
    split
    next empty =>
      obtain rfl := isEmpty_iff.mp empty
      exact laidOut_nil _ _
    next =>
      dsimp only
      rw [mergeSort_memberTexts sorted, memberTexts_eq_map, List.map_map]
      exact laidOut_bodyLines ..
  intro fuel enough _ rest space _
  obtain _ | fuel := fuel
  · obtain ⟨_, _, written, -⟩ := writeValue_head indent (.object members)
    rw [written] at enough
    cases enough
  obtain ⟨_, written, inside⟩ := laid.reads (parseMember (parseValue fuel depth)) enough
    (fun member known short => readsAs_member (each member known _ fuel (by
      simp only [memberText, length_append] at short
      omega)) member.1) (fun member => ⟨'"', _, rfl, rfl, by decide⟩) (by decide)
  rw [written, ← ofMembers_of_sorted sorted]
  exact parseValue_object space (inside rest)

/-- **Canonical JSON is read as the value it writes**, at any indentation. -/
theorem writesAs_writeValue (valid : Json.Valid depth value) (indent : Nat) :
    WritesAs depth (writeValue indent value) value := by
  induction valid generalizing indent with
  | @null depth | @bool depth b | @number depth n | @string depth s =>
    rw [writeValue_scalar indent rfl]
    exact writesAs_scalar rfl depth
  | array _ ih => exact writesAs_array ih indent
  | object sorted _ ih => exact writesAs_object sorted ih indent

theorem parse_canonicalJson (valid : Json.Valid limit value) :
    parse limit (canonicalJson value) = some value := by
  have read := writesAs_writeValue valid 0 ((canonicalJson value).length + 1)
    (by rw [canonicalJson]; omega) [] [] .nil nofun
  rw [parse]
  simp only [nil_append, append_nil] at read
  rw [canonicalJson] at read ⊢
  rw [read]
  rfl

end Canonical

/-! ## Fences -/

section Fences

variable [JsonReader N]

/-- How deep the JSON reader lets containers nest. -/
def recursionLimit : Nat := 127

/-- A parsed fence: the kind of its info string and its payload, an object. -/
structure NonProseFence (N : Type) where
  kind : Text
  payload : Json N

def isKindChar (c : Char) : Bool :=
  ('a' ≤ c && c ≤ 'z') || ('0' ≤ c && c ≤ '9') || c = '.' || c = '_' || c = '-'

def neigeOpen : Text := "```neige-block ".toList

def fenceClose : Text := "```".toList

/-- The kind of an unindented opener line: exactly three backticks, the info word, one
space, and a kind token. -/
def neigeOpenKind (line : Text) : Option Text := do
  let kind ← Text.stripStart neigeOpen line
  let kind := Text.dropLastChar '\n' kind
  let kind := Text.dropLastChar '\r' kind
  if kind ≠ [] ∧ kind.all isKindChar then some kind else none

/-- The fence that `raw` is, if it is exactly one well-formed fence (its final newline
is optional). -/
def parseFence (raw : Text) : Option (NonProseFence N) := do
  let (firstLine, rest) ← Text.splitOnce '\n' raw
  let kind ← neigeOpenKind firstLine
  let rest := Text.dropLastChar '\n' rest
  let (interior, close) := (Text.rsplitOnce '\n' rest).getD ([], rest)
  let close := Text.dropLastChar '\r' close
  if close = fenceClose then
    let payload : Json N ← JsonReader.parse recursionLimit interior
    if payload.isObject then some ⟨kind, payload⟩ else none
  else none

/-- The canonical text of a data block. -/
def renderFence (kind : Text) (payload : Json N) : Text :=
  neigeOpen ++ kind ++ '\n' :: canonicalJson payload ++ '\n' :: fenceClose ++ ['\n']

/-- A token that can name a kind. -/
def ValidKind (kind : Text) : Prop := kind ≠ [] ∧ kind.all isKindChar = true

/-- A payload that a fence can carry. -/
def ValidPayload (payload : Json N) : Prop :=
  payload.isObject = true ∧ Json.Valid recursionLimit payload

theorem ValidKind.not_mem (valid : ValidKind kind) (other : isKindChar c = false) : c ∉ kind := by
  intro inside
  have allowed := all_eq_true.mp valid.2 c inside
  cases other.symm.trans allowed

/-- An optional carriage return. -/
def IsReturn (text : Text) : Prop := text = [] ∨ text = ['\r']

theorem IsReturn.not_mem (isReturn : IsReturn text) : '\n' ∉ text := by
  rcases isReturn with rfl | rfl <;> decide

theorem dropLastChar_return (valid : ValidKind kind) (isReturn : IsReturn first) :
    dropLastChar '\r' (dropLastChar '\n' (kind ++ first)) = kind := by
  have kept : ∀ c, isKindChar c = false → dropLastChar c kind = kind := fun c other =>
    dropLastChar_of_ne fun last => valid.not_mem other (mem_of_getLast? last)
  rcases isReturn with rfl | rfl
  · rw [append_nil, kept '\n' rfl, kept '\r' rfl]
  · have noNewline : dropLastChar '\n' (kind ++ ['\r']) = kind ++ ['\r'] :=
      dropLastChar_of_ne (by simp)
    rw [noNewline, dropLastChar_append]

/-- An opener line is the info word and a kind, up to its line ending. -/
theorem neigeOpenKind_iff (oneLine : '\n' ∉ line) :
    neigeOpenKind line = some kind ↔
      ValidKind kind ∧ ∃ first, line = neigeOpen ++ kind ++ first ∧ IsReturn first := by
  constructor
  · intro opened
    simp only [neigeOpenKind, bind_eq_bind, bind_eq_some_iff] at opened
    obtain ⟨rest, stripped, opened⟩ := opened
    obtain rfl := stripStart_eq_some stripped
    split at opened
    next valid =>
      cases opened
      have noNewline : dropLastChar '\n' rest = rest :=
        dropLastChar_of_ne fun last =>
          oneLine (mem_append_right _ (mem_of_getLast? last))
      rw [noNewline] at valid ⊢
      refine ⟨valid, ?_⟩
      rcases eq_dropLastChar_or '\r' rest with same | same
      · exact ⟨[], by rw [append_nil, ← same], .inl rfl⟩
      · exact ⟨['\r'], by rw [append_assoc, ← same], .inr rfl⟩
    next => cases opened
  · rintro ⟨valid, _, rfl, isReturn⟩
    simp only [neigeOpenKind, append_assoc, stripStart_append, bind_eq_bind,
      bind_some, dropLastChar_return valid isReturn]
    exact if_pos valid

theorem ValidKind.opener_oneLine (valid : ValidKind kind) (isFirst : IsReturn first) :
    '\n' ∉ neigeOpen ++ kind ++ first := by
  simp only [mem_append, not_or]
  exact ⟨⟨by decide, valid.not_mem rfl⟩, isFirst.not_mem⟩

theorem IsReturn.close_oneLine (isLast : IsReturn last) : '\n' ∉ fenceClose ++ last := by
  rw [mem_append, not_or]
  exact ⟨by decide, isLast.not_mem⟩

/-- What is read from a text with the lines of a fence is its interior. -/
theorem parseFence_shape {interior : Text} (valid : ValidKind kind) (isFirst : IsReturn first)
    (isLast : IsReturn last) (ends : ending = [] ∨ ending = ['\n']) :
    parseFence (neigeOpen ++ kind ++ first ++ '\n' :: interior ++ '\n' :: fenceClose ++ last ++
        ending) =
      (JsonReader.parse recursionLimit interior).bind fun read : Json N =>
        if read.isObject then some ⟨kind, read⟩ else none := by
  have oneLine := valid.opener_oneLine isFirst
  have sameLine := isLast.close_oneLine
  have shape : neigeOpen ++ kind ++ first ++ '\n' :: interior ++ '\n' :: fenceClose ++ last ++
      ending = (neigeOpen ++ kind ++ first) ++
        '\n' :: (interior ++ '\n' :: (fenceClose ++ last) ++ ending) := by simp
  have body : dropLastChar '\n' (interior ++ '\n' :: (fenceClose ++ last) ++ ending) =
      interior ++ '\n' :: (fenceClose ++ last) := by
    rcases ends with rfl | rfl
    · rw [append_nil]
      refine dropLastChar_of_ne ?_
      rcases isLast with rfl | rfl <;> simp [fenceClose]
    · exact dropLastChar_append _ _
  have close : dropLastChar '\r' (fenceClose ++ last) = fenceClose := by
    rcases isLast with rfl | rfl
    · decide
    · exact dropLastChar_append _ _
  have opened := (neigeOpenKind_iff oneLine).mpr ⟨valid, first, rfl, isFirst⟩
  simp only [shape, parseFence, splitOnce_append oneLine, bind_eq_bind,
    bind_some, opened, body, rsplitOnce_append sameLine, getD_some, close,
    if_true]

/-- A text that is read as a fence has its lines: an opener that names the kind, the JSON of
the payload, and three backticks. -/
theorem shape_of_parseFence {fence : NonProseFence N} (read : parseFence raw = some fence) :
    ∃ interior first last ending,
      raw = neigeOpen ++ fence.kind ++ first ++ '\n' :: interior ++ '\n' :: fenceClose ++ last ++
        ending ∧
      ValidKind fence.kind ∧ IsReturn first ∧ IsReturn last ∧ (ending = [] ∨ ending = ['\n']) ∧
      JsonReader.parse recursionLimit interior = some fence.payload ∧
      fence.payload.isObject = true := by
  simp only [parseFence, bind_eq_bind, bind_eq_some_iff] at read
  obtain ⟨⟨_, rest⟩, split, _, opened, read⟩ := read
  obtain ⟨rfl, oneLine⟩ := splitOnce_eq_some split
  obtain ⟨valid, first, rfl, isFirst⟩ := (neigeOpenKind_iff oneLine).mp opened
  split at read
  next closed =>
    obtain ⟨_, parsed, read⟩ := bind_eq_some_iff.mp read
    split at read
    next object =>
      cases read
      cases found : rsplitOnce '\n' (dropLastChar '\n' rest) with
      | none =>
        rw [found] at parsed
        cases (JsonReader.empty _).symm.trans parsed
      | some pair =>
        obtain ⟨interior, close⟩ := pair
        rw [found] at parsed closed
        dsimp only [getD_some] at parsed closed
        obtain ⟨shape, -⟩ := rsplitOnce_eq_some found
        obtain ⟨last, rfl, isLast⟩ : ∃ last, close = fenceClose ++ last ∧ IsReturn last := by
          rcases eq_dropLastChar_or '\r' close with same | same
          · exact ⟨[], by rw [append_nil, same, closed], .inl rfl⟩
          · exact ⟨['\r'], by rw [same, closed], .inr rfl⟩
        rcases eq_dropLastChar_or '\n' rest with same | same
        · exact ⟨interior, first, last, [], by rw [same, shape]; simp, valid, isFirst, isLast,
            .inl rfl, parsed, object⟩
        · exact ⟨interior, first, last, ['\n'], by rw [same, shape]; simp, valid, isFirst, isLast,
            .inr rfl, parsed, object⟩
    next => cases read
  next => cases read

/-- The interior of a rendered fence is its canonical JSON. -/
theorem parseFence_rendered (validKind : ValidKind kind) (payload : Json N) :
    parseFence (renderFence kind payload) =
      (JsonReader.parse recursionLimit (canonicalJson payload)).bind fun read : Json N =>
        if read.isObject then some ⟨kind, read⟩ else none := by
  rw [← parseFence_shape validKind (.inl rfl) (.inl rfl) (.inr rfl)]
  simp [renderFence]

/-- **A rendered fence is read back as the block it was rendered from.** -/
theorem parseFence_renderFence {payload : Json N} (validKind : ValidKind kind)
    (valid : ValidPayload payload) :
    parseFence (renderFence kind payload) = some ⟨kind, payload⟩ := by
  rw [parseFence_rendered validKind, JsonReader.reads (parse_canonicalJson valid.2), bind_some]
  exact if_pos valid.1

/-- What is read from a fence can be rendered again. -/
theorem parseFence_valid {fence : NonProseFence N} (read : parseFence raw = some fence) :
    ValidKind fence.kind ∧ ValidPayload fence.payload := by
  obtain ⟨_, _, _, _, _, validKind, _, _, _, parsed, object⟩ := shape_of_parseFence read
  exact ⟨validKind, object, JsonReader.valid parsed⟩

/-- A rendered fence that is read as one of its kind is read as its payload, however deep
the payload was said to be. -/
theorem payload_of_rendered {fence : NonProseFence N} (valid : Json.Valid depth payload)
    (read : parseFence (renderFence kind payload) = some fence) (same : fence.kind = kind) :
    fence = ⟨kind, payload⟩ ∧ ValidKind kind ∧ ValidPayload payload := by
  obtain ⟨validKind, validPayload⟩ := parseFence_valid read
  rw [same] at validKind
  rw [parseFence_rendered validKind] at read
  obtain ⟨_, parsed, object⟩ := bind_eq_some_iff.mp read
  have whole := JsonReader.reads
    (parse_canonicalJson (valid.mono (Nat.le_max_left depth recursionLimit)))
  cases (JsonReader.mono parsed (Nat.le_max_right depth recursionLimit)).symm.trans whole
  split at object
  · cases object
    exact ⟨rfl, validKind, validPayload⟩
  · cases object

/-! ## A block in flat text -/

/-- The markdown of a prose payload. -/
def markdownOf (payload : Json N) : Option Text := (payload.get "markdown".toList).bind Json.asStr

/-- A block's part of the flat body: prose verbatim, data as its canonical fence. -/
def flatText (block : ReportBlock N) : Text :=
  if block.kind = kindProse then (markdownOf block.payload).getD []
  else renderFence block.kind block.payload

/-- A text appended to a flat body, on a line of its own. -/
def appendBlockText (body text : Text) : Text :=
  if body ≠ [] ∧ body.getLast? ≠ some '\n' then body ++ '\n' :: text else body ++ text

/-- The flat text of the blocks, in their order. -/
def flatBlocksText (blocks : List (ReportBlock N)) : Text :=
  blocks.foldl (fun body block => appendBlockText body (flatText block)) []

/-- A block as the report stores it: prose is its markdown and nothing else, data has a
payload that its fence can carry. -/
inductive Storable (block : ReportBlock N) : Prop
  | prose (markdown : Text) (isProse : block.kind = kindProse)
    (only : block.payload = prosePayload markdown)
  | data (isData : block.kind ≠ kindProse) (kind : ValidKind block.kind)
    (payload : ValidPayload block.payload)

end Fences

end NeigeCalm.Report
