import NeigeCalm.Report.Slices

/-!
# A body is cut exactly

Lines that leave no fence open are `Balanced`: each is plain, or part of a fence from its
opener to the first line that closes it.  A line lies outside every fence exactly if the
lines before it are balanced and it opens none.

`split_body_exact` says what the cuts of a body are in these terms: nothing is lost, no slice
can be cut again, the fences that are cut out are exactly the well-formed `neige-block` ones
that open outside every other fence, and a heading starts a slice exactly outside fences.
-/

namespace NeigeCalm.Report

open Library List Option

/-! ## Lines that leave no fence open -/

/-- The lines leave no fence open. -/
inductive Balanced : List Text → Prop
  | nil : Balanced []
  | line {line : Text} {rest : List Text} (plain : opens (lineContent line) = none)
    (more : Balanced rest) : Balanced (line :: rest)
  | fence {opener close : Text} {inner rest : List Text} {marker : Char} {minimum : Nat}
    {neige : Bool} (opened : opens (lineContent opener) = some (marker, minimum, neige))
    (inside : ∀ line ∈ inner, closesFence marker minimum (lineContent line) = false)
    (closes : closesFence marker minimum (lineContent close) = true) (more : Balanced rest) :
    Balanced (opener :: (inner ++ close :: rest))

/-- The lines of a `neige-block` fence, from its opener to the first line that closes it. -/
def NeigeLines (lines : List Text) : Prop :=
  ∃ opener inner close, lines = opener :: (inner ++ [close]) ∧
    (neigeOpenKind (lineContent opener)).isSome = true ∧
    (∀ line ∈ inner, closesFence '\x60' 3 (lineContent line) = false) ∧
    closesFence '\x60' 3 (lineContent close) = true

section WellFormed

variable (N : Type) [JsonReader N]

/-- The text of a well-formed fence: an opener line that names a kind, a JSON object, and
three backticks on a line of their own. -/
def WellFormed (text : Text) : Prop :=
  ∃ kind interior first last ending, ∃ payload : Json N,
    text = neigeOpen ++ kind ++ first ++ '\n' :: interior ++ '\n' :: fenceClose ++ last ++ ending ∧
    ValidKind kind ∧ IsReturn first ∧ IsReturn last ∧ (ending = [] ∨ ending = ['\n']) ∧
    JsonReader.parse recursionLimit interior = some payload ∧ payload.isObject = true

end WellFormed

variable {N : Type} [JsonReader N]

/-- **A fence is read exactly from a well-formed text.** -/
theorem parseFence_isSome_iff (text : Text) :
    (parseFence (N := N) text).isSome = true ↔ WellFormed N text := by
  constructor
  · intro isFence
    obtain ⟨fence, read⟩ := isSome_iff_exists.mp isFence
    obtain ⟨interior, first, last, ending, formed⟩ := shape_of_parseFence read
    exact ⟨fence.kind, interior, first, last, ending, fence.payload, formed⟩
  · rintro ⟨_, _, _, _, _, _, rfl, valid, isFirst, isLast, ends, parsed, object⟩
    rw [parseFence_shape valid isFirst isLast ends]
    simp [parsed, object]

/-! ## Reading balanced lines -/

section Balanced

/-- Balanced lines are read by themselves, whatever follows. -/
theorem Balanced.reads_append (balanced : Balanced first) (more : Reads N second tokens) :
    ∃ before, Reads N (first ++ second) (before ++ tokens) ∧ texts before = first.flatten := by
  induction balanced with
  | nil => exact ⟨[], more, rfl⟩
  | @line line _ plain _ ih =>
    obtain ⟨before, reads, text⟩ := ih
    refine ⟨lineToken line :: before, .line plain reads, ?_⟩
    rw [texts_cons, text_lineToken, text, flatten_cons]
  | @fence opener close inner _ _ _ neige opened inside closes _ ih =>
    obtain ⟨before, reads, text⟩ := ih
    refine ⟨fenceToken N neige (opener :: (inner ++ [close])).flatten :: before, ?_, ?_⟩
    · have whole := Reads.closed opened inside closes reads
      rwa [cons_append, append_assoc, cons_append]
    · rw [texts_cons, text_fenceToken, text]
      simp

/-- What is read before another token is balanced. -/
theorem Reads.balanced {before after : List Token} (reads : Reads N lines (before ++ after))
    (more : after ≠ []) :
    ∃ first second, lines = first ++ second ∧ Balanced first ∧ texts before = first.flatten ∧
      Reads N second after := by
  induction before generalizing lines with
  | nil => exact ⟨[], lines, rfl, .nil, rfl, reads⟩
  | cons _ before ih =>
    rw [cons_append] at reads
    generalize whole : before ++ after = tokens at reads
    cases reads with
    | @line line _ _ plain more =>
      obtain ⟨first, second, rfl, balanced, text, later⟩ := ih (whole ▸ more)
      refine ⟨line :: first, second, rfl, .line plain balanced, ?_, later⟩
      rw [texts_cons, text_lineToken, text, flatten_cons]
    | @closed opener close inner _ _ _ _ _ opened inside closes more =>
      obtain ⟨first, second, rfl, balanced, text, later⟩ := ih (whole ▸ more)
      refine ⟨opener :: (inner ++ close :: first), second, by simp,
        .fence opened inside closes balanced,
        ?_, later⟩
      rw [texts_cons, text_fenceToken, text]
      simp
    | unterminated =>
      exact absurd (append_eq_nil_iff.mp whole).2 more

end Balanced

/-- The first lines of a text are determined by where they end. -/
theorem eq_of_flatten_eq (lined : Text.Lined (first ++ second))
    (same : first ++ second = first' ++ second') (text : first.flatten = first'.flatten) :
    first = first' := by
  induction first generalizing first' with
  | nil =>
    cases first' with
    | nil => rfl
    | cons line =>
      have filled : line ≠ [] := lined.ne_nil (by rw [same]; simp)
      exact absurd (append_eq_nil_iff.mp text.symm).1 filled
  | cons line _ ih =>
    cases first' with
    | nil =>
      have filled : line ≠ [] := lined.ne_nil (by simp)
      exact absurd (append_eq_nil_iff.mp text).1 filled
    | cons =>
      obtain ⟨rfl, rest⟩ := cons.inj same
      rw [ih lined.tail rest (append_cancel_left text)]

/-! ## Groups of a longer reading -/

section Groups

/-- A fence that is cut separates the groups. -/
theorem groups_append_cut (run before after : List Token) (text : Text) :
    groups run (before ++ .cut text :: after) =
      groups run before ++ [.cut text] :: groups [] after := by
  fun_induction groups run before with
  | case1 run => rfl
  | case2 run text rest ih => exact ih
  | case3 run text rest ih => rw [cons_append, groups, ih, append_assoc]
  | case4 run text rest ih => rw [cons_append, groups, ih]; simp

/-- A heading starts a group. -/
theorem groups_append_heading (run before after : List Token) (text : Text) :
    groups run (before ++ .heading text :: after) =
      groups run before ++ groups [.heading text] after := by
  fun_induction groups run before with
  | case1 run => rfl
  | case2 run text rest ih => exact ih
  | case3 run text rest ih => rw [cons_append, groups, ih, append_assoc]
  | case4 run text rest ih => rw [cons_append, groups, ih]; simp

/-- Tokens that none of the later ones cuts. -/
def Solid (group : List Token) : Prop := ∀ token ∈ group.tail, ∃ text, token = .prose text

theorem groups_proses (run : List Token) (prose : ∀ token ∈ later, ∃ text, token = .prose text) :
    groups run later = flush (run ++ later) := by
  induction later generalizing run with
  | nil => rw [groups, append_nil]
  | cons _ _ ih =>
    obtain ⟨⟨_, rfl⟩, rest⟩ := forall_mem_cons.mp prose
    rw [groups, ih _ rest, append_assoc, singleton_append]

theorem solid_flush (solid : Solid run) (inside : group ∈ flush run) : Solid group := by
  unfold flush at inside
  split at inside
  · cases inside
  · rwa [mem_singleton.mp inside]

theorem solid_groups (solid : Solid run) : ∀ group ∈ groups run tokens, Solid group := by
  fun_induction groups run tokens with
  | case1 run => exact fun group => solid_flush solid
  | case2 run text rest ih =>
    refine ih fun token later => ?_
    cases run with
    | nil => cases later
    | cons =>
      rcases mem_append.mp later with before | here
      · exact solid token before
      · exact ⟨text, mem_singleton.mp here⟩
  | case3 run text rest ih =>
    intro group inside
    rcases mem_append.mp inside with before | later
    · exact solid_flush solid before
    · exact ih (fun token none => absurd none not_mem_nil) group later
  | case4 run text rest ih =>
    intro group inside
    rcases mem_append.mp inside with before | later
    · exact solid_flush solid before
    · rcases mem_cons.mp later with rfl | later
      · exact fun token none => absurd none not_mem_nil
      · exact ih (fun token none => absurd none not_mem_nil) group later

/-- A group is its own only group. -/
theorem groups_group (known : group ∈ groups [] tokens) : groups [] group = [group] := by
  have solid := solid_groups (fun token none => absurd none not_mem_nil) group known
  obtain ⟨head, later, rfl⟩ := exists_cons_of_ne_nil (isGroup_of_mem known).ne_nil
  have prose : ∀ token ∈ later, ∃ text, token = .prose text := solid
  cases head with
  | prose | heading => rw [groups, groups_proses _ prose]; rfl
  | cut =>
    rcases isGroup_of_mem known with ⟨_, same⟩ | ⟨-, uncut⟩
    · cases same
      rfl
    · cases uncut _ mem_cons_self

end Groups

/-! ## Fences and headings in a reading -/

section Exact

/-- A fence that is cut is a `neige-block` fence, from its opener to its closing line. -/
theorem Reads.cut (reads : Reads N lines (.cut text :: tokens)) :
    ∃ fence rest, lines = fence ++ rest ∧ fence.flatten = text ∧ NeigeLines fence := by
  generalize whole : Token.cut text :: tokens = all at reads
  cases reads with
  | nil => cases whole
  | line =>
    have token := (cons.inj whole).1
    unfold lineToken at token
    split at token <;> cases token
  | @closed opener close inner rest _ marker minimum _ opened inside closes =>
    have token := (cons.inj whole).1
    unfold fenceToken at token
    split at token
    next isCut =>
      obtain ⟨rfl, -⟩ := Bool.and_eq_true_iff.mp isCut
      cases token
      obtain ⟨rfl, rfl, kind⟩ :
          '\x60' = marker ∧ 3 = minimum ∧ (neigeOpenKind (lineContent opener)).isSome = true := by
        unfold opens at opened
        split at opened
        next kind =>
          obtain ⟨sameMarker, sameLength, -⟩ := by
            simpa only [some.injEq, Prod.mk.injEq] using opened
          exact ⟨sameMarker, sameLength, kind⟩
        next =>
          obtain ⟨_, -, same⟩ := map_eq_some_iff.mp opened
          cases congrArg (fun entry : Char × Nat × Bool => entry.2.2) same
      exact ⟨opener :: (inner ++ [close]), rest, by simp, rfl, opener, inner, close, rfl, kind,
        inside,
        closes⟩
    next => cases token
  | unterminated => cases (cons.inj whole).1

/-- The lines of a well-formed fence are read as a fence that is cut. -/
theorem NeigeLines.reads (isFence : NeigeLines fence) (formed : WellFormed N fence.flatten)
    (more : Reads N lines tokens) : Reads N (fence ++ lines) (.cut fence.flatten :: tokens) := by
  obtain ⟨opener, inner, close, rfl, kind, inside, closes⟩ := isFence
  have reads := Reads.closed (opens_of_neigeOpenKind kind) inside closes more
  have token : fenceToken N true (opener :: (inner ++ [close])).flatten =
      .cut (opener :: (inner ++ [close])).flatten := by
    rw [fenceToken, (parseFence_isSome_iff _).mpr formed]
    rfl
  rw [token] at reads
  rwa [cons_append, append_assoc, singleton_append]

/-- A line that starts with `# ` or `## `. -/
def IsHeading (line : Text) : Prop := "# ".toList <+: line ∨ "## ".toList <+: line

theorem isPrefix_dropLastChar (filled : start.getLast? ≠ some last) :
    start <+: Text.dropLastChar last text ↔ start <+: text := by
  rcases Text.eq_dropLastChar_or last text with same | same
  · rw [← same]
  · constructor
    · intro begins
      rw [same]
      exact begins.trans (prefix_append _ _)
    · intro begins
      rw [same, prefix_concat_iff] at begins
      rcases begins with whole | begins
      · exact absurd (by rw [whole, getLast?_concat]) filled
      · exact begins

theorem isH1OrH2_lineContent (line : Text) :
    isH1OrH2 (lineContent line) = true ↔ IsHeading line := by
  have content : ∀ start : Text, start.getLast? = some ' ' →
      (start.isPrefixOf (lineContent line) = true ↔ start <+: line) := by
    intro start space
    refine isPrefixOf_iff_prefix.trans ?_
    rw [lineContent, isPrefix_dropLastChar (by rw [space]; decide),
      isPrefix_dropLastChar (by rw [space]; decide)]
  rw [isH1OrH2, Bool.or_eq_true, content _ (by decide), content _ (by decide), IsHeading]

/-- A heading opens no fence. -/
theorem opens_heading (heading : isH1OrH2 line = true) : opens line = none := by
  obtain ⟨rest, rfl⟩ : ∃ rest, line = '#' :: rest := by
    rw [isH1OrH2, Bool.or_eq_true] at heading
    rcases heading with one | two
    · obtain ⟨rest, rfl⟩ := isPrefixOf_iff_prefix.mp one
      exact ⟨_, rfl⟩
    · obtain ⟨rest, rfl⟩ := isPrefixOf_iff_prefix.mp two
      exact ⟨_, rfl⟩
  have noKind : neigeOpenKind ('#' :: rest) = none := by
    have info : neigeOpen = '\x60' :: "``neige-block ".toList := by decide
    have other : neigeOpen.isPrefixOf ('#' :: rest) = false := by
      rw [info, isPrefixOf_cons_cons]
      rfl
    rw [neigeOpenKind, Text.stripStart, other]
    rfl
  simp [opens, noKind, openingFence, stripFenceIndent, fenceRun]

/-- A slice starts at the end of balanced lines. -/
def StartsSlice (N : Type) [JsonReader N] (body before : Text) : Prop :=
  ∃ earlier slice later, splitBody N body = earlier ++ slice :: later ∧ earlier.flatten = before

/-- What a slice ends is balanced. -/
theorem balanced_of_slices (some : body ≠ [])
    (slices : splitBody N body = earlier ++ slice :: later) :
    ∃ first second group after, Text.lines body = first ++ second ∧ Balanced first ∧
      first.flatten = earlier.flatten ∧ IsGroup group ∧ texts group = slice ∧
      Reads N (Text.lines slice) group ∧ Reads N second (group ++ after) := by
  obtain ⟨tokens, reads⟩ := exists_reads (N := N) (Text.lines body)
  rw [splitBody_eq reads some] at slices
  obtain ⟨_, _, whole, rfl, rest⟩ := map_eq_append_iff.mp slices
  obtain ⟨group, others, rfl, rfl, rfl⟩ := map_eq_cons_iff.mp rest
  have known : group ∈ groups [] tokens := by simp [whole]
  have isGroup : IsGroup group := isGroup_of_mem known
  have own := reads.group known
  have parts := flatten_groups [] tokens
  rw [whole, flatten_append, flatten_cons, nil_append] at parts
  rw [← parts] at reads
  have more : group ++ others.flatten ≠ [] := by simp [isGroup.ne_nil]
  obtain ⟨first, second, split, balanced, text, later⟩ := reads.balanced more
  refine ⟨first, second, group, others.flatten, split, balanced, ?_, isGroup, rfl, own, later⟩
  rw [texts_flatten, ← text]

theorem startsSlice_iff (split : Text.lines body = first ++ line :: rest)
    (heading : IsHeading line) :
    StartsSlice N body first.flatten ↔ Balanced first := by
  have lined := Text.lined_lines body
  have some : body ≠ [] := by
    rintro rfl
    cases first <;> cases split
  constructor
  · rintro ⟨_, _, _, slices, text⟩
    obtain ⟨_, _, _, _, whole, balanced, same, -⟩ := balanced_of_slices some slices
    rw [split] at lined whole
    rwa [eq_of_flatten_eq lined whole (by rw [same, text])]
  · intro balanced
    obtain ⟨tokens, more⟩ := exists_reads (N := N) rest
    have isHeading := (isH1OrH2_lineContent line).mpr heading
    have here := Reads.line (opens_heading isHeading) more
    rw [lineToken, if_pos isHeading] at here
    obtain ⟨_, reads, text⟩ := balanced.reads_append here
    rw [← split] at reads
    have slices := splitBody_eq reads some
    rw [groups_append_heading, map_append] at slices
    cases own : groups [.heading line] tokens with
    | nil =>
      have nothing := flatten_groups [.heading line] tokens
      rw [own] at nothing
      cases nothing
    | cons =>
      rw [own, map_cons] at slices
      refine ⟨_, _, _, slices, ?_⟩
      rw [texts_flatten, flatten_groups, nil_append, text]

theorem cut_slice (split : Text.lines body = first ++ fence ++ rest) (balanced : Balanced first)
    (isFence : NeigeLines fence) (formed : WellFormed N fence.flatten) :
    ∃ earlier later, splitBody N body = earlier ++ fence.flatten :: later ∧
      earlier.flatten = first.flatten ∧ later.flatten = rest.flatten := by
  have some : body ≠ [] := by
    rintro rfl
    obtain ⟨_, _, _, rfl, -⟩ := isFence
    cases first <;> cases split
  obtain ⟨_, more⟩ := exists_reads (N := N) rest
  obtain ⟨_, reads, text⟩ := balanced.reads_append (isFence.reads formed more)
  rw [← append_assoc, ← split] at reads
  have slices := splitBody_eq reads some
  rw [groups_append_cut, map_append, map_cons, texts_single] at slices
  refine ⟨_, _, slices, ?_, ?_⟩
  · rw [texts_flatten, flatten_groups, nil_append, text]
  · rw [texts_flatten, flatten_groups, nil_append, more.flatten]

/-- A slice is cut no further. -/
theorem splitBody_slice (inside : slice ∈ splitBody N body) : splitBody N slice = [slice] := by
  by_cases some : body = []
  · subst some
    rw [splitBody, if_pos rfl, mem_singleton] at inside
    rw [inside, splitBody, if_pos rfl]
  · have filled := splitBody_filled some slice inside
    obtain ⟨tokens, reads⟩ := exists_reads (N := N) (Text.lines body)
    rw [splitBody_eq reads some] at inside
    obtain ⟨_, known, rfl⟩ := mem_map.mp inside
    rw [splitBody_eq (reads.group known) filled, groups_group known, map_singleton]

/-- What the cuts of a body are. -/
structure CutExact (N : Type) [JsonReader N] (body : Text) : Prop where
  lossless : (splitBody N body).flatten = body
  filled : body ≠ [] → ∀ slice ∈ splitBody N body, slice ≠ []
  whole : ∀ slice ∈ splitBody N body, splitBody N slice = [slice]
  /-- A slice is read as a fence exactly if it is one, opened outside every other. -/
  fence : ∀ earlier slice later, splitBody N body = earlier ++ slice :: later →
    ((parseFence (N := N) slice).isSome = true ↔
      ∃ first fence rest, Text.lines body = first ++ fence ++ rest ∧
        first.flatten = earlier.flatten ∧ fence.flatten = slice ∧ Balanced first ∧
        NeigeLines fence ∧ WellFormed N slice)
  /-- Every such fence is a slice. -/
  cut : ∀ first fence rest, Text.lines body = first ++ fence ++ rest → Balanced first →
    NeigeLines fence → WellFormed N fence.flatten →
    ∃ earlier later, splitBody N body = earlier ++ fence.flatten :: later ∧
      earlier.flatten = first.flatten ∧ later.flatten = rest.flatten
  heading : ∀ first line rest, Text.lines body = first ++ line :: rest → IsHeading line →
    (StartsSlice N body first.flatten ↔ Balanced first)

/-- **Cutting a body is lossless, local and fence-exact.** -/
theorem split_body_exact (body : Text) : CutExact N body where
  lossless := flatten_splitBody N body
  filled := splitBody_filled
  whole _ := splitBody_slice
  cut _ _ _ := cut_slice
  heading _ _ _ := startsSlice_iff
  fence earlier slice later slices := by
    constructor
    · intro isFence
      have formed := (parseFence_isSome_iff slice).mp isFence
      have some : body ≠ [] := by
        rintro rfl
        rw [splitBody, if_pos rfl] at slices
        have inside : slice ∈ [[]] := by rw [slices]; simp
        rw [mem_singleton.mp inside] at isFence
        cases isFence
      obtain ⟨first, _, _, _, split, balanced, same, isGroup, rfl, own, reads⟩ :=
        balanced_of_slices some slices
      rcases isGroup with ⟨_, rfl⟩ | ⟨-, uncut⟩
      · obtain ⟨fence, rest, rfl, flat, isNeige⟩ := reads.cut
        refine ⟨first, fence, rest, by rw [split, append_assoc], same, ?_, balanced, isNeige,
          formed⟩
        rw [flat, texts_single, Token.text]
      · rw [parseFence_uncut own uncut] at isFence
        cases isFence
    · rintro ⟨_, _, _, -, -, -, -, -, formed⟩
      exact (parseFence_isSome_iff slice).mpr formed

end Exact

end NeigeCalm.Report
