import NeigeCalm.Report.Guard
import NeigeCalm.Report.Refinement
import NeigeCalm.Report.Slices

/-!
# Block boundaries in the flat projection

The write guard judges each prose block alone, the projection joins the blocks to one
text, and the scan carries an open fence from one block into the next.  So the fences that
are found in the projected body are the data blocks of the document (`Delimited`) only if
no run of prose blocks interferes: none leaves a fence open before a data block, and none
forms a fence out of several blocks.  `projection_delimited` is this equivalence.
-/

namespace NeigeCalm.Report

open Library List Option

variable {N : Type} [JsonReader N]

/-! ## Fences in their places -/

section Places

variable (N) in
/-- The fences among slices, each with where it starts. -/
def fencesFrom (offset : Nat) : List Text → List (Nat × NonProseFence N)
  | [] => []
  | slice :: rest =>
    ((parseFence slice).map fun fence => (offset, fence)).toList ++
      fencesFrom (offset + slice.length) rest

variable (N) in
/-- The well-formed fences that are slices of a body. -/
def foundFences (body : Text) : List (Nat × NonProseFence N) := fencesFrom N 0 (splitBody N body)

variable (N) in
/-- The fences that are cut out as tokens. -/
def cutFences (offset : Nat) : List Token → List (Nat × NonProseFence N)
  | [] => []
  | token :: rest =>
    (if token.isCut then (parseFence token.text).map fun fence => (offset, fence)
      else none).toList ++ cutFences (offset + token.text.length) rest

theorem cutFences_append :
    cutFences N offset (first ++ second) =
      cutFences N offset first ++ cutFences N (offset + (texts first).length) second := by
  induction first generalizing offset with
  | nil => rfl
  | cons _ _ ih =>
    rw [cons_append, cutFences, ih, cutFences, length_texts_cons, append_assoc, Nat.add_assoc]

theorem cutFences_uncut (offset : Nat) (uncut : ∀ token ∈ tokens, token.isCut = false) :
    cutFences N offset tokens = [] := by
  induction tokens generalizing offset with
  | nil => rfl
  | cons _ _ ih =>
    obtain ⟨first, rest⟩ := forall_mem_cons.mp uncut
    rw [cutFences, if_neg (by rw [first]; exact Bool.false_ne_true), ih _ rest]
    rfl

/-- Where a body stands in a longer one. -/
theorem cutFences_add :
    cutFences N (shift + offset) tokens =
      (cutFences N offset tokens).map fun found => (shift + found.1, found.2) := by
  induction tokens generalizing offset with
  | nil => rfl
  | cons token _ ih =>
    rw [cutFences, cutFences, Nat.add_assoc, ih, map_append]
    congr 1
    split
    · cases (parseFence (N := N) token.text) <;> rfl
    · rfl

theorem mem_cutFences_bounds (filled : ∀ token ∈ tokens, token.text ≠ [])
    (known : found ∈ cutFences N offset tokens) :
    offset ≤ found.1 ∧ found.1 < offset + (texts tokens).length := by
  induction tokens generalizing offset with
  | nil => cases known
  | cons _ _ ih =>
    obtain ⟨here, filled⟩ := forall_mem_cons.mp filled
    have some := length_pos_of_ne_nil here
    rw [length_texts_cons]
    rw [cutFences, mem_append] at known
    rcases known with now | later
    · rw [mem_toList] at now
      split at now
      · obtain ⟨_, -, rfl⟩ := map_eq_some_iff.mp now
        omega
      · cases now
    · have bounds := ih filled later
      omega

theorem fencesFrom_groups (offset : Nat) {groups : List (List Token)}
    (each : ∀ group ∈ groups, IsGroup group ∧ Reads N (Text.lines (texts group)) group) :
    fencesFrom N offset (groups.map texts) = cutFences N offset groups.flatten := by
  induction groups generalizing offset with
  | nil => rfl
  | cons _ _ ih =>
    obtain ⟨⟨isGroup, reads⟩, rest⟩ := forall_mem_cons.mp each
    rw [map_cons, fencesFrom, ih _ rest, flatten_cons, cutFences_append]
    congr 1
    rcases isGroup with ⟨_, rfl⟩ | ⟨-, uncut⟩
    · rw [texts_single, cutFences, cutFences, append_nil]
      rfl
    · rw [parseFence_uncut reads uncut, cutFences_uncut offset uncut]
      rfl

/-- **The fences found in a body are the cut tokens it reads as.** -/
theorem foundFences_eq (reads : Reads N (Text.lines body) tokens) :
    foundFences N body = cutFences N 0 tokens := by
  by_cases empty : body = []
  · subst empty
    cases reads
    rfl
  · rw [foundFences, splitBody_eq reads empty, fencesFrom_groups, flatten_groups]
    · rfl
    · intro group known
      exact ⟨isGroup_of_mem known, reads.group known⟩

theorem foundFences_nil_iff (body : Text) :
    foundFences N body = [] ↔
      ∀ slice ∈ splitBody N body, (parseFence (N := N) slice) = none := by
  unfold foundFences
  generalize 0 = offset
  induction splitBody N body generalizing offset with
  | nil => simp [fencesFrom]
  | cons slice _ ih =>
    rw [fencesFrom, append_eq_nil_iff, ih, forall_mem_cons]
    cases (parseFence (N := N) slice) <;> simp

end Places

/-! ## Where a text leaves the scan -/

section Ends

variable (N) in
/-- The scan of a text ends outside fences. -/
def EndsOutside (text : Text) : Prop := (scanLines N text).fence = none

variable (N) in
/-- How lines end: outside fences, so that what follows is read by itself, or in a fence
that started with `opener` and goes on in what follows. -/
inductive Ending (lines : List Text) (tokens : List Token) : Bool → Prop
  | outside (more : ∀ {rest later}, Reads N rest later →
      Reads N (lines ++ rest) (tokens ++ later)) :
    Ending lines tokens false
  | inside (front : List Text) {inner : List Text} {opener : Text} {before : List Token}
    {marker : Char} {minimum : Nat} {neige : Bool} (shape : lines = front ++ opener :: inner)
    (read : Reads N front before)
    (opened : opens (lineContent opener) = some (marker, minimum, neige))
    (unclosed : ∀ line ∈ inner, closesFence marker minimum (lineContent line) = false)
    (more : ∀ {rest later}, Reads N (opener :: (inner ++ rest)) later →
      Reads N (lines ++ rest) (before ++ later)) :
    Ending lines tokens true

/-- What was read before does not change how the rest ends. -/
theorem Ending.prepend (ending : Ending N lines tokens isOpen) (front : List Text)
    (reads : ∀ {rest later}, Reads N rest later → Reads N (front ++ rest) (token :: later)) :
    Ending N (front ++ lines) (token :: tokens) isOpen := by
  cases ending with
  | outside more =>
    refine .outside fun later => ?_
    rw [append_assoc]
    exact reads (more later)
  | inside start shape read opened unclosed more =>
    refine .inside (front ++ start) ?_ (reads read) opened unclosed fun later => ?_
    · rw [shape, append_assoc]
    · rw [append_assoc]
      exact reads (more later)

/-- **The scan says how the lines end.** -/
theorem Reads.ending (reads : Reads N lines tokens) (body : Text) (starts : List Nat)
    (invalid : List Text) (offset : Nat) :
    Ending N lines tokens
      (lines.foldl (scanLine N body) ⟨starts, invalid, offset, none⟩).fence.isSome := by
  induction reads generalizing starts invalid offset with
  | nil => exact .outside fun later => later
  | @line line _ _ plain _ ih =>
    rw [foldl_cons, scanLine_plain plain]
    exact (ih _ _ _).prepend [line] (.line plain)
  | @closed opener _ inner _ _ _ _ neige opened inside closes _ ih =>
    obtain ⟨_, first⟩ := scanLine_open (N := N) body starts invalid offset opened
    rw [foldl_cons, first, foldl_append, foldl_inside inside, foldl_cons]
    obtain ⟨_, last⟩ := scanLine_close (N := N) body starts _
      (offset + opener.length + inner.flatten.length) offset neige closes
    rw [last, append_cons, ← cons_append]
    refine (ih _ _ _).prepend _ fun later => ?_
    have read := Reads.closed (N := N) opened inside closes later
    rwa [append_cons, ← cons_append] at read
  | unterminated opened inside =>
    obtain ⟨_, first⟩ := scanLine_open (N := N) body starts invalid offset opened
    rw [foldl_cons, first, foldl_inside inside]
    exact .inside [] rfl .nil opened inside fun later => later

/-- A fence that is open ends only after the lines that do not close it. -/
theorem closes_after {inner inner' rest rest' : List Text} {close : Text} {closes : Text → Bool}
    (unclosed : ∀ line ∈ inner, closes line = false) (closed : closes close = true)
    (same : inner' ++ close :: rest' = inner ++ rest) : ∃ between, inner' = inner ++ between := by
  rcases append_eq_append_iff.mp same with ⟨more, rfl, tail⟩ | ⟨more, rfl, -⟩
  · rcases cons_eq_append_iff.mp tail with ⟨rfl, -⟩ | ⟨_, rfl, -⟩
    · exact ⟨[], by simp⟩
    · cases (unclosed close (by simp)).symm.trans closed
  · exact ⟨more, rfl⟩

/-- What starts inside an open fence is not found. -/
theorem hidden {opener : Text} {inner rest : List Text} {marker : Char} {minimum : Nat}
    {neige : Bool} {offset : Nat} {found : Nat × NonProseFence N}
    (opened : opens (lineContent opener) = some (marker, minimum, neige))
    (unclosed : ∀ line ∈ inner, closesFence marker minimum (lineContent line) = false)
    (lined : Text.Lined (opener :: (inner ++ rest)))
    (reads : Reads N (opener :: (inner ++ rest)) tokens)
    (known : found ∈ cutFences N offset tokens) :
    found.1 ≠ offset + (opener :: inner).flatten.length := by
  have start := length_pos_of_ne_nil (lined.ne_nil mem_cons_self)
  have filled := reads.text_ne_nil lined
  rw [flatten_cons, length_append]
  generalize whole : inner ++ rest = others at reads lined
  cases reads with
  | line plain => rw [opened] at plain; cases plain
  | @closed _ close _ _ later _ _ _ opened' _ closes' =>
    obtain ⟨rfl, rfl, rfl⟩ : marker = _ ∧ minimum = _ ∧ neige = _ := by
      simpa only [opened, some.injEq, Prod.mk.injEq] using opened'
    obtain ⟨_, rfl⟩ := closes_after unclosed closes' whole.symm
    have last : close ≠ [] := lined.ne_nil (by simp)
    have some := length_pos_of_ne_nil last
    obtain ⟨-, filled⟩ := forall_mem_cons.mp filled
    rw [cutFences, mem_append, text_fenceToken] at known
    rcases known with now | later
    · rw [mem_toList] at now
      split at now
      · obtain ⟨_, -, rfl⟩ := map_eq_some_iff.mp now
        omega
      · cases now
    · have bounds := (mem_cutFences_bounds filled later).1
      simp only [flatten_cons, flatten_append, flatten_nil, append_nil, length_append] at bounds
      omega
  | unterminated => cases known

end Ends

/-! ## A data block in a body -/

section Data

variable {block : ReportBlock N}

/-- The fence that a data block is. -/
def ReportBlock.fence (block : ReportBlock N) : NonProseFence N := ⟨block.kind, block.payload⟩

theorem Storable.parseFence (storable : Storable block) (isData : block.kind ≠ kindProse) :
    parseFence (flatText block) = some block.fence := by
  cases storable with
  | prose _ isProse => exact absurd isProse isData
  | data _ validKind validPayload =>
    rw [flatText, if_neg isData]
    exact parseFence_renderFence validKind validPayload

/-- The text of a data block ends its last line. -/
theorem ended_data (isData : block.kind ≠ kindProse) (text : Text) :
    Text.Ended (text ++ flatText block) := by
  rw [flatText, if_neg isData, renderFence, ← append_assoc]
  exact .inr getLast?_concat

theorem Reads.data (storable : Storable block) (isData : block.kind ≠ kindProse)
    (more : Reads N (Text.lines rest) tokens) :
    Reads N (Text.lines (flatText block ++ rest)) (.cut (flatText block) :: tokens) := by
  have parsed := storable.parseFence isData
  have form : Report.canonical (N := N) (flatText block) = flatText block := by
    rw [Report.canonical, parsed, flatText, if_neg isData]
    rfl
  have reads := more.canonical parsed
  rwa [form] at reads

/-- Where a text ends outside fences, a data block is found right after it. -/
theorem foundFences_data (ended : Text.Ended text) (outside : EndsOutside N text)
    (storable : Storable block) (isData : block.kind ≠ kindProse) :
    foundFences N (text ++ (flatText block ++ rest)) =
      foundFences N text ++ (text.length, block.fence) ::
        (foundFences N rest).map fun found =>
          (text.length + (flatText block).length + found.1, found.2) := by
  obtain ⟨front, reads⟩ := exists_reads (N := N) (Text.lines text)
  obtain ⟨_, more⟩ := exists_reads (N := N) (Text.lines rest)
  have ending := reads.ending text [] [] 0
  have isOutside : ((Text.lines text).foldl (scanLine N text) ⟨[], [], 0, none⟩).fence = none :=
    outside
  rw [isOutside, isSome_none] at ending
  cases ending with
  | outside append =>
    have whole := append (more.data storable isData)
    rw [← Text.lines_append ended] at whole
    have length : (texts front).length = text.length := by
      rw [← reads.flatten, Text.lines_flatten]
    rw [foundFences_eq whole, foundFences_eq reads, foundFences_eq more, cutFences_append,
      cutFences,
      ← cutFences_add, Nat.zero_add, length, Nat.add_zero]
    simp only [Token.isCut, Token.text, if_true, storable.parseFence isData]
    rfl

/-- Where a text ends inside a fence, nothing is found right after it. -/
theorem hidden_of_endsInside (ended : Text.Ended text) (inside : ¬ EndsOutside N text)
    (rest : Text) :
    ∀ found ∈ foundFences N (text ++ rest), found.1 ≠ text.length := by
  obtain ⟨_, reads⟩ := exists_reads (N := N) (Text.lines text)
  have ending := reads.ending text [] [] 0
  have isInside : ((Text.lines text).foldl (scanLine N text) ⟨[], [], 0, none⟩).fence.isSome =
      true := isSome_iff_ne_none.mpr inside
  rw [isInside] at ending
  cases ending with
  | @inside _ inner opener before _ _ _ shape read opened unclosed append =>
    obtain ⟨_, more⟩ := exists_reads (N := N) (opener :: (inner ++ Text.lines rest))
    have whole := append more
    have lined := Text.lined_lines (text ++ rest)
    have length : text.length = (texts before).length + (opener :: inner).flatten.length := by
      rw [← read.flatten, ← length_append, ← flatten_append, ← shape, Text.lines_flatten]
    rw [← Text.lines_append ended] at whole
    rw [Text.lines_append ended, shape, append_assoc] at lined
    have filled := whole.text_ne_nil (Text.lined_lines _)
    intro found known
    rw [foundFences_eq whole, cutFences_append, mem_append] at known
    rcases known with early | late
    · have bounds := mem_cutFences_bounds (fun token inside => filled token
        (mem_append_left _ inside)) early
      omega
    · have apart := hidden opened unclosed lined.of_append more late
      omega

end Data

/-! ## Joining -/

section Joining

/-- The text, with its last line ended. -/
def endLine (text : Text) : Text :=
  if text ≠ [] ∧ text.getLast? ≠ some '\n' then text ++ ['\n'] else text

theorem endLine_ended (text : Text) : Text.Ended (endLine text) := by
  unfold endLine
  split
  next => exact .inr getLast?_concat
  next ended =>
    by_cases empty : text = []
    · exact .inl empty
    · exact .inr (not_not.mp fun other => ended ⟨empty, other⟩)

theorem endLine_of_ended (ended : Text.Ended text) : endLine text = text := by
  refine if_neg fun ⟨filled, other⟩ => ?_
  rcases ended with empty | last
  · exact filled empty
  · exact other last

theorem appendBlockText_eq : appendBlockText body text = endLine body ++ text := by
  unfold appendBlockText endLine
  split <;> simp

theorem endLine_append (ended : Text.Ended text) :
    endLine (text ++ rest) = text ++ endLine rest := by
  cases rest with
  | nil => rw [append_nil, endLine_of_ended ended]; simp [endLine]
  | cons c rest =>
    have last : (text ++ c :: rest).getLast? = (c :: rest).getLast? := by
      rw [getLast?_append, getLast?_cons, some_or]
    unfold endLine
    rw [last]
    split
    next open_ => rw [if_pos ⟨cons_ne_nil c rest, open_.2⟩, append_assoc]
    next closed =>
      rw [if_neg fun open_ => closed ⟨by simp, open_.2⟩]

/-- The body so far, with more blocks joined to it. -/
def joinFrom (body : Text) (blocks : List (ReportBlock N)) : Text :=
  blocks.foldl (fun body block => appendBlockText body (flatText block)) body

theorem joinFrom_append (ended : Text.Ended text) (rest : Text) (blocks : List (ReportBlock N)) :
    joinFrom (text ++ rest) blocks = text ++ joinFrom rest blocks := by
  induction blocks generalizing rest with
  | nil => rfl
  | cons _ _ ih =>
    rw [joinFrom, foldl_cons, appendBlockText_eq, endLine_append ended, append_assoc,
      ← appendBlockText_eq]
    exact ih _

theorem joinFrom_data (isData : block.kind ≠ kindProse) (body : Text)
    (blocks : List (ReportBlock N)) :
    joinFrom body (block :: blocks) = endLine body ++ (flatText block ++ joinFrom [] blocks) := by
  have split := joinFrom_append (ended_data isData (endLine body)) [] blocks
  rw [append_nil, append_assoc] at split
  rw [← split, ← appendBlockText_eq]
  rfl

/-- The data blocks, each with where its text starts in the body. -/
def heldFrom (body : Text) : List (ReportBlock N) → List (Nat × NonProseFence N)
  | [] => []
  | block :: rest =>
    let more := heldFrom (appendBlockText body (flatText block)) rest
    if block.kind = kindProse then more else ((endLine body).length, block.fence) :: more

theorem heldFrom_append (ended : Text.Ended text) (rest : Text) (blocks : List (ReportBlock N)) :
    heldFrom (text ++ rest) blocks =
      (heldFrom rest blocks).map fun held => (text.length + held.1, held.2) := by
  induction blocks generalizing rest with
  | nil => rfl
  | cons block _ ih =>
    have next : appendBlockText (text ++ rest) (flatText block) =
        text ++ appendBlockText rest (flatText block) := by
      rw [appendBlockText_eq, appendBlockText_eq, endLine_append ended, append_assoc]
    rw [heldFrom, heldFrom, next, ih]
    split
    · rfl
    · rw [endLine_append ended, length_append, map_cons]

theorem heldFrom_data (isData : block.kind ≠ kindProse) (body : Text)
    (blocks : List (ReportBlock N)) :
    heldFrom body (block :: blocks) = ((endLine body).length, block.fence) ::
      (heldFrom [] blocks).map fun held =>
        ((endLine body).length + (flatText block).length + held.1, held.2) := by
  have split := heldFrom_append (ended_data isData (endLine body)) [] blocks
  rw [append_nil, ← appendBlockText_eq] at split
  rw [heldFrom, if_neg isData, split, appendBlockText_eq, length_append]

end Joining

/-! ## Runs of prose blocks -/

/-- Prose blocks in a row: their texts, the text they are in the body, and whether a data
block follows. -/
structure ProseRun where
  blocks : List Text
  text : Text
  followed : Bool

section Runs

variable {blocks : List (ReportBlock N)}

/-- The runs, the first of which has started. -/
def proseRunsFrom (texts : List Text) (text : Text) : List (ReportBlock N) → List ProseRun
  | [] => [⟨texts, text, false⟩]
  | block :: rest =>
    if block.kind = kindProse then
      proseRunsFrom (texts ++ [flatText block]) (appendBlockText text (flatText block)) rest
    else ⟨texts, endLine text, true⟩ :: proseRunsFrom [] [] rest

/-- The runs of prose blocks before, between and after the data blocks. -/
def proseRuns (blocks : List (ReportBlock N)) : List ProseRun := proseRunsFrom [] [] blocks

variable (N) in
/-- No slice of the text is a fence. -/
def Fenceless (text : Text) : Prop :=
  ∀ slice ∈ splitBody N text, (parseFence (N := N) slice) = none

variable (N) in
/-- The run forms no fence, and leaves none open before a data block. -/
structure ProseRun.Harmless (run : ProseRun) : Prop where
  fenceless : Fenceless N run.text
  outside : run.followed = true → EndsOutside N run.text

/-- The data block after a run is found in its place exactly if the run is harmless and the
rest is found in its places. -/
theorem delimited_data (ended : Text.Ended text) (storable : Storable block)
    (isData : block.kind ≠ kindProse) :
    foundFences N (text ++ (flatText block ++ rest)) = (text.length, block.fence) ::
        held.map (fun found => (text.length + (flatText block).length + found.1, found.2)) ↔
      (Fenceless N text ∧ EndsOutside N text) ∧ foundFences N rest = held := by
  constructor
  · intro same
    have outside : EndsOutside N text := by
      by_contra inside
      exact hidden_of_endsInside ended inside (flatText block ++ rest) (text.length, block.fence)
        (by rw [same]; exact mem_cons_self) rfl
    rw [foundFences_data ended outside storable isData] at same
    have none : foundFences N text = [] := by
      cases early : foundFences N text with
      | nil => rfl
      | cons found =>
        rw [early, cons_append] at same
        obtain ⟨tokens, reads⟩ := exists_reads (N := N) (Text.lines text)
        have known : found ∈ cutFences N 0 tokens := by
          rw [← foundFences_eq reads, early]
          exact mem_cons_self
        have bounds := (mem_cutFences_bounds (reads.text_ne_nil (Text.lined_lines text)) known).2
        rw [← reads.flatten, Text.lines_flatten, (cons.inj same).1] at bounds
        omega
    rw [none, nil_append] at same
    refine ⟨⟨(foundFences_nil_iff text).mp none, outside⟩, ?_⟩
    refine map_injective_iff.mpr (fun one other equal => ?_) (cons.inj same).2
    obtain ⟨place, fence⟩ := Prod.mk.inj equal
    exact Prod.ext (Nat.add_left_cancel place) fence
  · rintro ⟨⟨fenceless, outside⟩, rfl⟩
    rw [foundFences_data ended outside storable isData, (foundFences_nil_iff text).mpr fenceless,
      nil_append]

/-- Along the blocks: the fences of the body are the data blocks if all runs are harmless. -/
theorem delimited_iff (storable : ∀ block ∈ blocks, Storable block) (texts : List Text)
    (text : Text) :
    foundFences N (joinFrom text blocks) = heldFrom text blocks ↔
      ∀ run ∈ proseRunsFrom texts text blocks, run.Harmless N := by
  induction blocks generalizing texts text with
  | nil =>
    rw [proseRunsFrom, forall_mem_singleton]
    refine (foundFences_nil_iff text).trans ⟨fun fenceless => ⟨fenceless, nofun⟩,
      fun harmless => ?_⟩
    exact harmless.fenceless
  | cons block _ ih =>
    obtain ⟨here, storable⟩ := forall_mem_cons.mp storable
    by_cases isProse : block.kind = kindProse
    · rw [heldFrom, proseRunsFrom, if_pos isProse, if_pos isProse]
      exact ih storable _ _
    · rw [proseRunsFrom, if_neg isProse, forall_mem_cons, joinFrom_data isProse,
        heldFrom_data isProse, delimited_data (endLine_ended text) here isProse, ih storable []]
      refine and_congr_left fun _ => ⟨fun ⟨fenceless, outside⟩ => ⟨fenceless, fun _ => outside⟩,
        fun harmless => ⟨harmless.fenceless, harmless.outside rfl⟩⟩

/-! ## One prose block that was checked -/

theorem lineContent_newline (absent : '\n' ∉ line) :
    lineContent (line ++ ['\n']) = lineContent line := by
  have kept : Text.dropLastChar '\n' line = line :=
    Text.dropLastChar_of_ne fun last => absent (mem_of_getLast? last)
  rw [lineContent_line, lineContent, kept]

/-- The newline after a fence is optional. -/
theorem parseFence_newline (absent : raw.getLast? ≠ some '\n') :
    (parseFence (N := N) (raw ++ ['\n'])) = parseFence raw := by
  refine ext fun fence => ⟨fun read => ?_, fun read => ?_⟩
  · obtain ⟨_, _, last, _, shape, valid, isFirst, isLast, ends, parsed, object⟩ :=
      shape_of_parseFence read
    rcases ends with rfl | rfl
    · -- the last line does not end in a newline
      have newline := congrArg getLast? shape
      rcases isLast with rfl | rfl <;> simp [fenceClose, getLast?_append, getLast?_cons] at newline
    · rw [append_cancel_right shape, ← append_nil (_ ++ last),
        parseFence_shape valid isFirst isLast (.inl rfl)]
      simp [parsed, object]
  · obtain ⟨_, _, _, _, rfl, valid, isFirst, isLast, ends, parsed, object⟩ :=
      shape_of_parseFence read
    rcases ends with rfl | rfl
    · rw [append_nil, parseFence_shape valid isFirst isLast (.inr rfl)]
      simp [parsed, object]
    · exact absurd getLast?_concat absent

theorem Reads.isCut_parse (reads : Reads N lines tokens) :
    ∀ token ∈ tokens, token.isCut = true →
      ∃ fence : NonProseFence N, parseFence token.text = some fence := by
  have uncut : ∀ {token : Token}, token.isCut = false → token.isCut = true →
      ∃ fence : NonProseFence N, parseFence token.text = some fence := fun no yes => by
    rw [no] at yes; cases yes
  induction reads with
  | nil => nofun
  | line _ _ ih =>
    refine forall_mem_cons.mpr ⟨uncut ?_, ih⟩
    unfold lineToken
    split <;> rfl
  | closed _ _ _ _ ih =>
    refine forall_mem_cons.mpr ⟨fun isCut => ?_, ih⟩
    rw [text_fenceToken]
    unfold fenceToken at isCut
    split at isCut
    next parsed => exact isSome_iff_exists.mp (Bool.and_eq_true_iff.mp parsed).2
    next => cases isCut
  | unterminated => exact forall_mem_cons.mpr ⟨uncut rfl, nofun⟩

/-- A text holds no fence exactly if no token is cut out of it. -/
theorem fenceless_iff (reads : Reads N (Text.lines text) tokens) :
    Fenceless N text ↔ ∀ token ∈ tokens, token.isCut = false := by
  rw [Fenceless, ← foundFences_nil_iff, foundFences_eq reads]
  refine ⟨fun none token inside => ?_, cutFences_uncut 0⟩
  cases isCut : token.isCut with
  | false => rfl
  | true =>
    obtain ⟨_, parsed⟩ := reads.isCut_parse token inside isCut
    obtain ⟨_, _, rfl⟩ := append_of_mem inside
    rw [cutFences_append, cutFences, if_pos isCut, parsed] at none
    simp at none

/-- Ending the last line cuts nothing out. -/
theorem Reads.newline (reads : Reads N lines tokens) (shape : lines = front ++ [last])
    (absent : '\n' ∉ last) (filled : last ≠ []) (uncut : ∀ token ∈ tokens, token.isCut = false) :
    ∃ tokens', Reads N (front ++ [last ++ ['\n']]) tokens' ∧
      ∀ token ∈ tokens', token.isCut = false := by
  have same := lineContent_newline absent
  induction reads generalizing front with
  | nil => exact absurd shape (by simp)
  | @line line _ _ plain _ ih =>
    obtain ⟨first, uncut⟩ := forall_mem_cons.mp uncut
    rcases cons_eq_append_iff.mp shape with ⟨rfl, one⟩ | ⟨front, rfl, tail⟩
    · cases one
      refine ⟨[lineToken (last ++ ['\n'])], .line (same.symm ▸ plain) .nil, ?_⟩
      rw [forall_mem_singleton]
      unfold lineToken
      split <;> rfl
    · obtain ⟨tokens', reads, uncut⟩ := ih tail uncut
      exact ⟨lineToken line :: tokens', .line plain reads, forall_mem_cons.mpr ⟨first, uncut⟩⟩
  | @closed opener close inner rest _ _ _ _ opened inside closes _ ih =>
    obtain ⟨first, uncut⟩ := forall_mem_cons.mp uncut
    rcases eq_nil_or_concat rest with rfl | ⟨rest, line, rfl⟩
    · have split : (opener :: inner) ++ [close] = front ++ [last] := shape
      obtain ⟨rfl, one⟩ := append_inj' split rfl
      obtain rfl := singleton_inj.mp one
      have reads := Reads.closed (N := N) opened inside (same.symm ▸ closes) .nil
      refine ⟨_, reads, forall_mem_singleton.mpr ?_⟩
      have text : (opener :: (inner ++ [close ++ ['\n']])).flatten =
          (opener :: (inner ++ [close])).flatten ++ ['\n'] := by simp
      have ends : (opener :: (inner ++ [close])).flatten.getLast? ≠ some '\n' := by
        rw [← cons_append, flatten_append, flatten_singleton, getLast?_append,
          getLast?_eq_some_getLast filled, some_or]
        exact fun newline => absent (some.inj newline ▸ getLast_mem filled)
      rw [fenceToken, text, parseFence_newline ends]
      rw [fenceToken] at first
      split
      next parsed => rw [if_pos parsed] at first; cases first
      next => rfl
    · rw [concat_eq_append] at shape ih
      have split : (opener :: (inner ++ close :: rest)) ++ [line] = front ++ [last] := by
        simpa using shape
      obtain ⟨rfl, one⟩ := append_inj' split rfl
      obtain rfl := singleton_inj.mp one
      obtain ⟨_, reads, uncut⟩ := ih rfl uncut
      refine ⟨_, ?_, forall_mem_cons.mpr ⟨first, uncut⟩⟩
      simpa using Reads.closed (N := N) opened inside closes reads
  | @unterminated opener inner _ _ _ opened inside =>
    rcases eq_nil_or_concat inner with rfl | ⟨inner, line, rfl⟩
    · have split : [] ++ [opener] = front ++ [last] := shape
      obtain ⟨rfl, one⟩ := append_inj' split rfl
      obtain rfl := singleton_inj.mp one
      exact ⟨_, .unterminated (same.symm ▸ opened) inside, forall_mem_singleton.mpr rfl⟩
    · rw [concat_eq_append] at shape inside
      have split : (opener :: inner) ++ [line] = front ++ [last] := shape
      obtain ⟨rfl, one⟩ := append_inj' split rfl
      obtain rfl := singleton_inj.mp one
      refine ⟨_, .unterminated opened fun other known => ?_, forall_mem_singleton.mpr rfl⟩
      rcases mem_append.mp known with before | here
      · exact inside other (mem_append_left _ before)
      · rw [mem_singleton.mp here, same]
        exact inside line (by simp)

theorem Fenceless.endLine (fenceless : Fenceless N text) : Fenceless N (endLine text) := by
  unfold Report.endLine
  split
  next open_ =>
    obtain ⟨filled, _⟩ := open_
    obtain ⟨_, reads⟩ := exists_reads (N := N) (Text.lines text)
    have some : Text.lines text ≠ [] := fun none =>
      filled (by rw [← Text.lines_flatten text, none]; rfl)
    obtain ⟨front, last, shape, oneLine, part, ended⟩ := (Text.lined_lines text).exists_open some
      (by rwa [Text.lines_flatten])
    obtain ⟨_, more, uncut⟩ := reads.newline shape oneLine part ((fenceless_iff reads).mp fenceless)
    have lines : Text.lines (text ++ ['\n']) = front ++ [last ++ ['\n']] := by
      rw [← append_nil (front ++ _)] at ended
      rw [← ended.lines_flatten, ← Text.lines_flatten text, shape]
      simp
    rw [← lines] at more
    exact (fenceless_iff more).mpr uncut
  next => exact fenceless

/-! ## The projection -/

variable (N) in
/-- What keeps a run of blocks that each were checked alone from interfering: several of
them form no fence together, and none is left open before a data block. -/
structure ProseRun.Contained (run : ProseRun) : Prop where
  fenceless : 2 ≤ run.blocks.length → Fenceless N run.text
  outside : run.followed = true → EndsOutside N run.text

theorem fenceless_nil : Fenceless N [] := by
  intro slice inside
  rw [splitBody, if_pos rfl, mem_singleton] at inside
  subst inside
  rfl

/-- Fewer than two blocks that were checked form no fence. -/
theorem fenceless_of_short {texts : List Text} (checked : ∀ text ∈ texts, Fenceless N text)
    (short : ¬ 2 ≤ texts.length) : Fenceless N (texts.foldl appendBlockText []) := by
  cases texts with
  | nil => exact fenceless_nil
  | cons text others =>
    cases others with
    | nil => exact checked text mem_cons_self
    | cons => exact absurd (by simp) short

theorem harmless_iff_contained (texts : List Text) (checked : ∀ text ∈ texts, Fenceless N text)
    (each : ∀ block ∈ blocks, block.kind = kindProse → Fenceless N (flatText block)) :
    (∀ run ∈ proseRunsFrom texts (texts.foldl appendBlockText []) blocks, run.Harmless N) ↔
      ∀ run ∈ proseRunsFrom texts (texts.foldl appendBlockText []) blocks, run.Contained N := by
  induction blocks generalizing texts with
  | nil =>
    rw [proseRunsFrom, forall_mem_singleton, forall_mem_singleton]
    refine ⟨fun harmless => ⟨fun _ => harmless.fenceless, nofun⟩, fun contained => ⟨?_, nofun⟩⟩
    by_cases several : 2 ≤ texts.length
    · exact contained.fenceless several
    · exact fenceless_of_short checked several
  | cons block _ ih =>
    obtain ⟨here, each⟩ := forall_mem_cons.mp each
    rw [proseRunsFrom]
    split
    next isProse =>
      have more : ∀ text ∈ texts ++ [flatText block], Fenceless N text :=
        forall_mem_append.mpr ⟨checked, forall_mem_singleton.mpr (here isProse)⟩
      have step := ih _ more each
      rwa [foldl_append] at step
    next isData =>
      rw [forall_mem_cons, forall_mem_cons]
      refine and_congr ⟨fun harmless => ⟨fun _ => harmless.fenceless, harmless.outside⟩,
        fun contained => ⟨?_, contained.outside⟩⟩ (ih [] nofun each)
      by_cases several : 2 ≤ texts.length
      · exact contained.fenceless several
      · exact (fenceless_of_short checked several).endLine

/-- The fences of the projected body are the data blocks of the document, with their kinds
and payloads, each where its block stands. -/
def Delimited (doc : ReportDoc) (blocks : List (ReportBlock N)) : Prop :=
  ∃ body, doc.project = .ok (doc.summary, body) ∧ foundFences N body = heldFrom [] blocks

/-- **Block boundaries survive the projection exactly if every run of prose blocks is
contained.** -/
theorem projection_delimited {doc : ReportDoc} (holds : doc.Holds blocks)
    (checked : ∀ block ∈ blocks, block.kind = kindProse →
      checkProseMarkdown N (flatText block) = .ok ()) :
    Delimited doc blocks ↔ ∀ run ∈ proseRuns blocks, run.Contained N := by
  have each : ∀ block ∈ blocks, block.kind = kindProse → Fenceless N (flatText block) :=
    fun block known isProse => (checkProseMarkdown_ok (checked block known isProse)).2
  have projected : Delimited doc blocks ↔
      foundFences N (joinFrom [] blocks) = heldFrom [] blocks := by
    constructor
    · rintro ⟨_, projected, same⟩
      cases holds.project.symm.trans projected
      exact same
    · exact fun same => ⟨flatBlocksText blocks, holds.project, same⟩
  exact projected.trans ((delimited_iff holds.sound.storable [] []).trans
    (harmless_iff_contained [] nofun each))

end Runs

/-! ## A data block that is swallowed -/

theorem trialBlocks_checked : ∀ block ∈ trialBlocks, block.kind = kindProse →
    checkProseMarkdown NumberToken (flatText block) = .ok () := by
  refine forall_mem_cons.mpr ⟨fun _ => ?_, forall_mem_singleton.mpr fun isProse => ?_⟩
  · have none : invalidNeigeFences NumberToken "# A\n".toList = [] := by decide +kernel
    have slices : splitBody NumberToken "# A\n".toList = ["# A\n".toList] := by decide +kernel
    have text : flatText (trialProse "# A\n".toList) = "# A\n".toList := by decide
    rw [text, checkProseMarkdown, none, slices]
    rfl
  · exact absurd isProse (by decide)

theorem projection_delimited_trial : Delimited trialDoc trialBlocks := by
  refine (projection_delimited trialDoc_holds trialBlocks_checked).mpr ?_
  have runs : proseRuns trialBlocks =
      [⟨["# A\n".toList], "# A\n".toList, true⟩, ⟨[], [], false⟩] := by rfl
  rw [runs]
  refine forall_mem_cons.mpr ⟨⟨fun several => absurd several (by decide), fun _ => rfl⟩, ?_⟩
  exact forall_mem_singleton.mpr ⟨fun several => absurd several (by decide), nofun⟩

/-- A code fence that is never closed, before a data block. -/
def openBlocks : List (ReportBlock NumberToken) :=
  [⟨"b_0001".toList, kindProse, 1, prosePayload "~~~\n".toList⟩, trialApp]

def openDoc : ReportDoc := ⟨[], none, .layout (Layout.writeExact openBlocks)⟩

/-- The prose block was checked, and the data block is not among the fences of the body. -/
theorem openBlocks_swallowed : openDoc.Holds openBlocks ∧
    (∀ block ∈ openBlocks, block.kind = kindProse →
      checkProseMarkdown NumberToken (flatText block) = .ok ()) ∧
    ∃ body, openDoc.project = .ok (openDoc.summary, body) ∧
      (foundFences NumberToken body).map Prod.snd ≠
        (openBlocks.filter fun block => block.kind ≠ kindProse).map ReportBlock.fence := by
  have holds : openDoc.Holds openBlocks :=
    fromBlocksExact_holds (by decide) (by decide) (readable_of_fields openBlocks (by decide)) rfl
  refine ⟨holds, forall_mem_cons.mpr ⟨fun _ => ?_, forall_mem_singleton.mpr
    fun isProse => absurd isProse (by decide)⟩, _, holds.project, ?_⟩
  · have none : invalidNeigeFences NumberToken "~~~\n".toList = [] := by decide +kernel
    have slices : splitBody NumberToken "~~~\n".toList = ["~~~\n".toList] := by decide +kernel
    have text : flatText (⟨"b_0001".toList, kindProse, 1, prosePayload "~~~\n".toList⟩ :
        ReportBlock NumberToken) = "~~~\n".toList := by decide
    rw [text, checkProseMarkdown, none, slices]
    rfl
  · have found : (foundFences NumberToken (flatBlocksText openBlocks)).length = 0 := by
      decide +kernel
    rw [length_eq_zero_iff.mp found]
    exact fun same => absurd (congrArg length same) (by decide)

end NeigeCalm.Report
