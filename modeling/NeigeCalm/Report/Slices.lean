import NeigeCalm.Report.Align
import NeigeCalm.Report.Scan

/-!
# What the scan cuts

A body reads as a list of tokens, each from one point outside fences to the next: a line,
a heading, a fence that is cut out, or any other fence (`Reads`).  The slices are the
groups of tokens between cuts (`splitBody_eq`).  A token does not depend on what follows
it, so rewriting each cut fence in its canonical form leaves all cuts where they are
(`splitBody_canonicalBody`).
-/

namespace NeigeCalm.Report

open Library List

/-! ## The lines of a fence -/

/-- A backtick starts no JSON token. -/
theorem stray_backtick : Json.Stray '\x60' := by decide

theorem take_spaces {line : Text} {count : Nat}
    (leading : count ≤ (line.takeWhile (· = ' ')).length) :
    line.take count = replicate count ' ' := by
  induction count generalizing line with
  | zero => rfl
  | succ _ ih =>
    cases line with
    | nil => cases leading
    | cons c =>
      by_cases space : c = ' '
      · rw [takeWhile_cons_of_pos (by simpa using space), length_cons] at leading
        rw [take_succ_cons, replicate_succ, ih (by omega), space]
      · rw [takeWhile_cons_of_neg (by simpa using space)] at leading
        cases leading

theorem stripFenceIndent_eq (line : Text) :
    ∃ indent, line = replicate indent ' ' ++ stripFenceIndent line := by
  simp only [stripFenceIndent]
  split
  next =>
    refine ⟨min 4 (line.takeWhile (· = ' ')).length, ?_⟩
    rw [← take_spaces (Nat.min_le_right ..), take_append_drop]
  next => exact ⟨0, rfl⟩

/-- A line that closes a fence starts with its marker, up to spaces. -/
theorem not_closesFence {line : Text} {minimum : Nat}
    (none : Json.startsNoLine '\x60' true line = true) :
    closesFence '\x60' minimum line = false := by
  obtain ⟨_, shape⟩ := stripFenceIndent_eq line
  cases stripped : stripFenceIndent line with
  | nil => simp [closesFence, stripped, fenceRun]
  | cons c =>
    have other : c ≠ '\x60' := by
      rintro rfl
      rw [shape, stripped, Json.startsNoLine_blanks fun c inside =>
        .inl (eq_of_mem_replicate inside)] at none
      cases none
    simp [closesFence, stripped, fenceRun, other]

theorem lineContent_line : lineContent (content ++ ['\n']) = Text.dropLastChar '\r' content := by
  rw [lineContent, Text.dropLastChar_append]

theorem lineContent_append (line : Text) : ∃ ending, line = lineContent line ++ ending := by
  have drop : ∀ (last : Char) (text : Text),
      ∃ ending, text = Text.dropLastChar last text ++ ending :=
    fun last text => (Text.eq_dropLastChar_or last text).elim
      (fun same => ⟨[], by rw [append_nil, ← same]⟩) fun same => ⟨_, same⟩
  obtain ⟨newline, first⟩ := drop '\n' line
  obtain ⟨return_, second⟩ := drop '\r' (Text.dropLastChar '\n' line)
  exact ⟨return_ ++ newline, by rw [lineContent, ← append_assoc, ← second, ← first]⟩

section Fences

variable {N : Type} [JsonReader N]

/-- **The lines of a well-formed fence**: an opener, lines that do not close it, and one
that does. -/
theorem parseFence_lines {raw : Text} {fence : NonProseFence N}
    (read : parseFence raw = some fence) :
    ∃ opener inner close, Text.lines raw = opener :: (inner ++ [close]) ∧
      (neigeOpenKind (lineContent opener)).isSome = true ∧
      (∀ line ∈ inner, closesFence '\x60' 3 (lineContent line) = false) ∧
      closesFence '\x60' 3 (lineContent close) = true := by
  obtain ⟨interior, first, last, ending, rfl, valid, isFirst, isLast, ends, parsed, -⟩ :=
    shape_of_parseFence read
  have oneLine := valid.opener_oneLine isFirst
  have sameLine := isLast.close_oneLine
  have closeLine : Text.lines (fenceClose ++ last ++ ending) = [fenceClose ++ last ++ ending] := by
    rcases ends with rfl | rfl
    · rw [append_nil, Text.lines_of_open (by simp [fenceClose]) sameLine]
    · have isLine := Text.lines_of_isLine ⟨_, rfl, sameLine⟩ []
      rwa [append_nil] at isLine
  refine ⟨neigeOpen ++ fence.kind ++ first ++ ['\n'], Text.lines (interior ++ ['\n']),
    fenceClose ++ last ++ ending, ?_, ?_, ?_, ?_⟩
  · have split : neigeOpen ++ fence.kind ++ first ++ '\n' :: interior ++ '\n' :: fenceClose ++
      last ++
        ending = (neigeOpen ++ fence.kind ++ first ++ ['\n']) ++
          ((interior ++ ['\n']) ++ (fenceClose ++ last ++ ending)) := by simp
    rw [split, Text.lines_of_isLine ⟨_, rfl, oneLine⟩,
      Text.lines_append (.inr getLast?_concat), closeLine]
  · have opened : neigeOpenKind (neigeOpen ++ fence.kind) = some fence.kind := by
      refine (neigeOpenKind_iff fun inside => oneLine (mem_append_left _ inside)).mpr
        ⟨valid, [], by rw [append_nil], .inl rfl⟩
    have content : lineContent (neigeOpen ++ fence.kind ++ first ++ ['\n']) =
        neigeOpen ++ fence.kind := by
      rw [lineContent_line]
      rcases isFirst with rfl | rfl
      · rw [append_nil]
        refine Text.dropLastChar_of_ne fun last => valid.not_mem (c := '\r') rfl ?_
        rw [getLast?_append_of_ne_nil _ valid.1] at last
        exact mem_of_getLast? last
      · exact Text.dropLastChar_append _ _
    rw [content, opened, Option.isSome_some]
  · intro line inside
    refine not_closesFence ?_
    have none := JsonReader.lines parsed stray_backtick
    rw [← Json.startsNoLine_concat (c := '\n') (by decide),
      ← Text.lines_flatten (interior ++ ['\n'])] at none
    obtain ⟨_, shape⟩ := lineContent_append line
    exact Json.startsNoLine_of_append
      (shape ▸ Json.startsNoLine_of_mem (Text.lined_lines _) none inside)
  · rcases isLast with rfl | rfl <;> rcases ends with rfl | rfl <;> decide

end Fences

/-! ## Tokens -/

/-- The fence a line opens: its marker, how many close it, and whether the line is a
`neige-block` opener. -/
def opens (line : Text) : Option (Char × Nat × Bool) :=
  if (neigeOpenKind line).isSome then some ('\x60', 3, true)
  else (openingFence line).map fun (marker, length) => (marker, length, false)

inductive Token
  | prose (text : Text)
  | heading (text : Text)
  | cut (text : Text)

def Token.text : Token → Text
  | .prose text | .heading text | .cut text => text

def Token.isCut : Token → Bool
  | .cut _ => true
  | _ => false

def texts (tokens : List Token) : Text := tokens.flatMap Token.text

/-- The token of a line outside fences. -/
def lineToken (line : Text) : Token :=
  if isH1OrH2 (lineContent line) then .heading line else .prose line

section Tokens

variable (N : Type) [JsonReader N]

/-- The token of a closed fence. -/
def fenceToken (neige : Bool) (text : Text) : Token :=
  if neige && (parseFence (N := N) text).isSome then .cut text else .prose text

/-- The lines read as the tokens. -/
inductive Reads : List Text → List Token → Prop
  | nil : Reads [] []
  | line {line : Text} {rest : List Text} {tokens : List Token}
    (plain : opens (lineContent line) = none) (more : Reads rest tokens) :
    Reads (line :: rest) (lineToken line :: tokens)
  | closed {opener close : Text} {inner rest : List Text} {tokens : List Token}
    {marker : Char} {minimum : Nat} {neige : Bool}
    (opened : opens (lineContent opener) = some (marker, minimum, neige))
    (inside : ∀ line ∈ inner, closesFence marker minimum (lineContent line) = false)
    (closes : closesFence marker minimum (lineContent close) = true) (more : Reads rest tokens) :
    Reads (opener :: (inner ++ close :: rest))
      (fenceToken N neige (opener :: (inner ++ [close])).flatten :: tokens)
  | unterminated {opener : Text} {inner : List Text} {marker : Char} {minimum : Nat} {neige : Bool}
    (opened : opens (lineContent opener) = some (marker, minimum, neige))
    (inside : ∀ line ∈ inner, closesFence marker minimum (lineContent line) = false) :
    Reads (opener :: inner) [.prose (opener :: inner).flatten]

end Tokens

section Reading

variable {N : Type} [JsonReader N]

theorem text_lineToken (line : Text) : (lineToken line).text = line := by
  unfold lineToken
  split <;> rfl

theorem text_fenceToken : (fenceToken N neige text).text = text := by
  unfold fenceToken
  split <;> rfl

/-- The first line that closes a fence, if one does. -/
theorem exists_close (marker : Char) (minimum : Nat) (lines : List Text) :
    (∀ line ∈ lines, closesFence marker minimum (lineContent line) = false) ∨
    ∃ inner close rest, lines = inner ++ close :: rest ∧
      (∀ line ∈ inner, closesFence marker minimum (lineContent line) = false) ∧
      closesFence marker minimum (lineContent close) = true := by
  induction lines with
  | nil => exact .inl nofun
  | cons line lines ih =>
    cases closes : closesFence marker minimum (lineContent line) with
    | true => exact .inr ⟨[], line, lines, rfl, nofun, closes⟩
    | false =>
      rcases ih with none | ⟨inner, close, rest, rfl, inside, closed⟩
      · exact .inl (forall_mem_cons.mpr ⟨closes, none⟩)
      · exact .inr ⟨line :: inner, close, rest, rfl, forall_mem_cons.mpr ⟨closes, inside⟩, closed⟩

/-- Every list of lines reads as tokens. -/
theorem exists_reads (lines : List Text) : ∃ tokens, Reads N lines tokens := by
  induction length : lines.length using Nat.strong_induction_on generalizing lines with
  | h n ih =>
    subst length
    cases lines with
    | nil => exact ⟨[], .nil⟩
    | cons line rest =>
      cases opened : opens (lineContent line) with
      | none =>
        obtain ⟨_, more⟩ := ih rest.length (by simp) rest rfl
        exact ⟨_, .line opened more⟩
      | some fence =>
        obtain ⟨marker, minimum, _⟩ := fence
        rcases exists_close marker minimum rest with none | ⟨_, _, rest, rfl, inside, closes⟩
        · exact ⟨_, .unterminated opened none⟩
        · obtain ⟨_, more⟩ := ih rest.length (by simp; omega) rest rfl
          exact ⟨_, .closed opened inside closes more⟩

theorem Reads.flatten (reads : Reads N lines tokens) : lines.flatten = texts tokens := by
  induction reads with
  | nil => rfl
  | line _ _ ih => rw [texts, flatMap_cons, text_lineToken, ← texts, ← ih, flatten_cons]
  | closed _ _ _ _ ih =>
    rw [texts, flatMap_cons, text_fenceToken, ← texts, ← ih]
    simp
  | unterminated => simp [texts, Token.text]

/-- A part of the tokens is read from its own lines. -/
theorem Reads.split (reads : Reads N lines (first ++ second)) :
    ∃ before after, lines = before ++ after ∧ Reads N before first ∧ Reads N after second := by
  induction first generalizing lines with
  | nil => exact ⟨[], lines, rfl, .nil, reads⟩
  | cons _ first ih =>
    rw [cons_append] at reads
    generalize whole : first ++ second = tokens at reads
    cases reads with
    | line plain more =>
      obtain ⟨before, after, rfl, one, two⟩ := ih (whole ▸ more)
      exact ⟨_ :: before, after, rfl, .line plain one, two⟩
    | closed opened inside closes more =>
      obtain ⟨_, after, rfl, one, two⟩ := ih (whole ▸ more)
      exact ⟨_, after, by simp, .closed opened inside closes one, two⟩
    | unterminated opened inside =>
      obtain ⟨rfl, rfl⟩ := append_eq_nil_iff.mp whole
      exact ⟨_, [], (append_nil _).symm, .unterminated opened inside, .nil⟩

theorem Reads.text_ne_nil (reads : Reads N lines tokens) (lined : Text.Lined lines) :
    ∀ token ∈ tokens, token.text ≠ [] := by
  have filled : ∀ {line : Text} {more : List Text}, Text.Lined (line :: more) → ∀ rest : List Text,
      (line :: rest).flatten ≠ [] := fun lined rest empty =>
    lined.ne_nil mem_cons_self (append_eq_nil_iff.mp empty).1
  induction reads with
  | nil => nofun
  | line _ _ ih =>
    refine forall_mem_cons.mpr ⟨?_, ih lined.tail⟩
    rw [text_lineToken]
    exact lined.ne_nil mem_cons_self
  | closed _ _ _ _ ih =>
    refine forall_mem_cons.mpr ⟨?_, ih ?_⟩
    · rw [text_fenceToken]
      exact filled lined _
    · rw [append_cons] at lined
      exact lined.tail.of_append
  | unterminated => exact forall_mem_cons.mpr ⟨filled lined _, nofun⟩

end Reading

/-! ## The scan finds the cuts -/

/-- Where the scan starts slices. -/
def startsFrom (offset : Nat) : List Token → List Nat
  | [] => []
  | .prose text :: rest => startsFrom (offset + text.length) rest
  | .heading text :: rest => offset :: startsFrom (offset + text.length) rest
  | .cut text :: rest =>
    offset :: (offset + text.length) :: startsFrom (offset + text.length) rest

theorem startsFrom_cons (tokens : List Token) :
    startsFrom offset (token :: tokens) =
      startsFrom offset [token] ++ startsFrom (offset + token.text.length) tokens := by
  cases token <;> rfl

section Scanning

variable {N : Type} [JsonReader N] {offset start minimum : Nat} {marker : Char} {neige : Bool}

theorem scanLine_plain (plain : opens (lineContent line) = none) :
    scanLine N body ⟨starts, invalid, offset, none⟩ line =
      ⟨starts ++ if isH1OrH2 (lineContent line) then [offset] else [], invalid,
        offset + line.length, none⟩ := by
  unfold opens at plain
  split at plain
  · cases plain
  next noKind =>
    have noFence := Option.map_eq_none_iff.mp plain
    simp only [scanLine, if_neg noKind, noFence]
    split <;> simp

theorem scanLine_open (body : Text) (starts : List Nat) (invalid : List Text) (offset : Nat)
    (opened : opens (lineContent line) = some (marker, minimum, neige)) :
    ∃ invalid', scanLine N body ⟨starts, invalid, offset, none⟩ line =
      ⟨starts, invalid', offset + line.length,
        some ⟨marker, minimum, if neige then some offset else none⟩⟩ := by
  unfold opens at opened
  split at opened
  next kind =>
    obtain ⟨rfl, rfl, rfl⟩ : '\x60' = marker ∧ 3 = minimum ∧ true = neige := by
      simpa only [Option.some.injEq, Prod.mk.injEq] using opened
    exact ⟨invalid, by simp only [scanLine, if_pos kind, if_pos]⟩
  next noKind =>
    obtain ⟨⟨m, length⟩, found, same⟩ := Option.map_eq_some_iff.mp opened
    obtain ⟨rfl, rfl, rfl⟩ : m = marker ∧ length = minimum ∧ false = neige := by
      simpa only [Prod.mk.injEq] using same
    exact ⟨_, by simp only [scanLine, if_neg noKind, found]; rfl⟩

theorem foldl_inside {inner : List Text}
    (inside : ∀ line ∈ inner, closesFence marker minimum (lineContent line) = false) :
    inner.foldl (scanLine N body) ⟨starts, invalid, offset, some ⟨marker, minimum, neigeStart⟩⟩ =
      ⟨starts, invalid, offset + inner.flatten.length, some ⟨marker, minimum, neigeStart⟩⟩ := by
  induction inner generalizing offset with
  | nil => rfl
  | cons line _ ih =>
    obtain ⟨first, rest⟩ := forall_mem_cons.mp inside
    have step : scanLine N body ⟨starts, invalid, offset, some ⟨marker, minimum, neigeStart⟩⟩ line =
        ⟨starts, invalid, offset + line.length, some ⟨marker, minimum, neigeStart⟩⟩ := by
      simp [scanLine, first]
    rw [foldl_cons, step, ih rest, flatten_cons, length_append, Nat.add_assoc]

theorem scanLine_close (body : Text) (starts : List Nat) (invalid : List Text) (offset start : Nat)
    (neige : Bool) (closes : closesFence marker minimum (lineContent line) = true) :
    ∃ invalid', scanLine N body ⟨starts, invalid, offset,
        some ⟨marker, minimum, if neige then some start else none⟩⟩ line =
      ⟨starts ++ if neige && (parseFence ((body.take (offset + line.length)).drop start) :
          Option (NonProseFence N)).isSome then [start, offset + line.length] else [],
        invalid', offset + line.length, none⟩ := by
  cases neige with
  | false => exact ⟨invalid, by simp [scanLine, closes]⟩
  | true =>
    simp only [scanLine, closes, if_pos, Bool.true_and]
    split
    · exact ⟨_, rfl⟩
    · exact ⟨_, by rw [append_nil]⟩

/-- The scan of a fence, from its opener to the line that closes it. -/
theorem foldl_closed (starts : List Nat) (invalid : List Text) {before : Text}
    {inner rest : List Text} (opened : opens (lineContent opener) = some (marker, minimum, neige))
    (inside : ∀ line ∈ inner, closesFence marker minimum (lineContent line) = false)
    (closes : closesFence marker minimum (lineContent close) = true)
    (whole : body = before ++ ((opener :: (inner ++ [close])).flatten ++ rest.flatten)) :
    ∃ invalid', (opener :: (inner ++ [close])).foldl (scanLine N body)
        ⟨starts, invalid, before.length, none⟩ =
      ⟨starts ++ startsFrom before.length [fenceToken N neige
          (opener :: (inner ++ [close])).flatten],
        invalid', before.length + (opener :: (inner ++ [close])).flatten.length, none⟩ := by
  obtain ⟨first, openStep⟩ := scanLine_open (N := N) body starts invalid before.length opened
  rw [foldl_cons, openStep, foldl_append, foldl_inside inside, foldl_cons, foldl_nil]
  obtain ⟨last, closeStep⟩ := scanLine_close (N := N) body starts first
    (before.length + opener.length + inner.flatten.length) before.length neige closes
  rw [closeStep]
  have upTo : before.length + opener.length + inner.flatten.length + close.length =
      before.length + (opener :: (inner ++ [close])).flatten.length := by
    simp; omega
  have cut : (body.take (before.length + (opener :: (inner ++ [close])).flatten.length)).drop
      before.length = (opener :: (inner ++ [close])).flatten := by
    rw [whole, take_length_add_append, take_left, drop_left]
  refine ⟨last, ?_⟩
  rw [upTo, cut, fenceToken]
  split <;> rfl

/-- **The scan starts slices exactly at the cuts of the tokens.** -/
theorem scan_reads {lines : List Text} (reads : Reads N lines tokens) (starts : List Nat)
    (invalid : List Text) (before : Text) (whole : body = before ++ lines.flatten) :
    (lines.foldl (scanLine N body) ⟨starts, invalid, before.length, none⟩).starts =
      starts ++ startsFrom before.length tokens := by
  induction reads generalizing starts invalid before with
  | nil => simp [startsFrom]
  | @line line rest _ plain _ ih =>
    rw [foldl_cons, scanLine_plain plain]
    have later : body = (before ++ line) ++ rest.flatten := by simp [whole]
    rw [← length_append, ih _ _ _ later, lineToken]
    split <;> simp [startsFrom]
  | @closed _ _ _ _ tokens _ _ _ opened inside closes _ ih =>
    rw [append_cons, ← cons_append] at whole ⊢
    rw [flatten_append] at whole
    obtain ⟨_, fence⟩ := foldl_closed (N := N) starts invalid opened inside closes whole
    rw [← append_assoc] at whole
    rw [foldl_append, fence, ← length_append, ih _ _ _ whole, length_append,
      append_assoc, startsFrom_cons tokens, text_fenceToken]
  | unterminated opened inside =>
    obtain ⟨_, openStep⟩ := scanLine_open (N := N) body starts invalid before.length opened
    rw [foldl_cons, openStep, foldl_inside inside]
    simp [startsFrom]

end Scanning

/-! ## Groups of tokens -/

def flush (run : List Token) : List (List Token) := if run = [] then [] else [run]

/-- The tokens between cuts; `run` has been read and not yet been cut off. -/
def groups (run : List Token) : List Token → List (List Token)
  | [] => flush run
  | .prose text :: rest => groups (run ++ [.prose text]) rest
  | .heading text :: rest => flush run ++ groups [.heading text] rest
  | .cut text :: rest => flush run ++ [.cut text] :: groups [] rest

theorem flatten_flush (run : List Token) : (flush run).flatten = run := by
  unfold flush
  split
  next empty => exact empty.symm
  next => exact flatten_singleton

theorem flatten_groups (run tokens : List Token) : (groups run tokens).flatten = run ++ tokens := by
  fun_induction groups run tokens with
  | case1 run => rw [flatten_flush, append_nil]
  | case2 run text rest ih => rw [ih, append_assoc]; rfl
  | case3 run text rest ih => rw [flatten_append, flatten_flush, ih]; rfl
  | case4 run text rest ih =>
    rw [flatten_append, flatten_flush, flatten_cons, ih]
    rfl

theorem mem_of_mem_groups (known : group ∈ groups [] tokens) (inside : token ∈ group) :
    token ∈ tokens := by
  rw [← nil_append tokens, ← flatten_groups]
  exact mem_flatten_of_mem known inside

/-- A group that may be a slice: one cut fence, or tokens none of which is. -/
def IsGroup (group : List Token) : Prop :=
  (∃ text, group = [.cut text]) ∨ group ≠ [] ∧ ∀ token ∈ group, token.isCut = false

theorem IsGroup.ne_nil (isGroup : IsGroup group) : group ≠ [] := by
  rcases isGroup with ⟨_, rfl⟩ | ⟨some, -⟩
  · exact cons_ne_nil _ _
  · exact some

theorem isGroup_flush (uncut : ∀ token ∈ run, token.isCut = false) (inside : group ∈ flush run) :
    IsGroup group := by
  unfold flush at inside
  split at inside
  next => cases inside
  next some => rw [mem_singleton.mp inside]; exact .inr ⟨some, uncut⟩

theorem isGroup_groups (uncut : ∀ token ∈ run, token.isCut = false) :
    ∀ group ∈ groups run tokens, IsGroup group := by
  fun_induction groups run tokens with
  | case1 run => exact fun group => isGroup_flush uncut
  | case2 run text rest ih =>
    refine ih fun token inside => ?_
    rcases mem_append.mp inside with before | here
    · exact uncut token before
    · rw [mem_singleton.mp here]; rfl
  | case3 run text rest ih =>
    intro group inside
    rcases mem_append.mp inside with before | later
    · exact isGroup_flush uncut before
    · exact ih (by simp [Token.isCut]) group later
  | case4 run text rest ih =>
    intro group inside
    rcases mem_append.mp inside with before | later
    · exact isGroup_flush uncut before
    · rcases mem_cons.mp later with rfl | later
      · exact .inl ⟨text, rfl⟩
      · exact ih nofun group later

theorem isGroup_of_mem (known : group ∈ groups [] tokens) :
    IsGroup group := isGroup_groups (fun _ inside => absurd inside not_mem_nil) group known

/-! ## The slices are the groups -/

/-- Where each text of a list starts in their concatenation. -/
def positions (offset : Nat) : List Text → List Nat
  | [] => []
  | text :: rest => offset :: positions (offset + text.length) rest

theorem slicesAt_positions (before : Text) (whole : body = before ++ slices.flatten) :
    slicesAt body (positions before.length slices) = slices := by
  induction slices generalizing before with
  | nil => rfl
  | cons slice rest ih =>
    cases rest with
    | nil => simp [positions, slicesAt, whole]
    | cons next rest =>
      have later : body = (before ++ slice) ++ (next :: rest).flatten := by simp [whole]
      have tail := ih (before ++ slice) later
      rw [length_append] at tail
      rw [positions, positions, slicesAt, ← positions, tail]
      rw [later, ← length_append, take_left, drop_left]

theorem positions_append (offset : Nat) (first second : List Text) :
    positions offset (first ++ second) =
      positions offset first ++ positions (offset + first.flatten.length) second := by
  induction first generalizing offset with
  | nil => rfl
  | cons _ _ ih =>
    rw [cons_append, positions, ih, positions, flatten_cons, length_append,
      Nat.add_assoc, cons_append]

theorem le_of_mem_positions (inside : x ∈ positions offset slices) : offset ≤ x := by
  induction slices generalizing offset with
  | nil => cases inside
  | cons _ _ ih =>
    rcases mem_cons.mp inside with rfl | later
    · exact Nat.le_refl _
    · exact Nat.le_trans (Nat.le_add_right ..) (ih later)

theorem sorted_positions (offset : Nat) (filled : ∀ slice ∈ slices, slice ≠ []) :
    (positions offset slices).Pairwise (· < ·) := by
  induction slices generalizing offset with
  | nil => exact List.Pairwise.nil
  | cons _ _ ih =>
    obtain ⟨first, filled⟩ := forall_mem_cons.mp filled
    refine List.Pairwise.cons (fun x later => ?_) (ih _ filled)
    have below := le_of_mem_positions later
    have longer := length_pos_iff.mpr first
    omega

theorem lt_of_mem_positions (filled : ∀ slice ∈ slices, slice ≠ [])
    (inside : x ∈ positions offset slices) : x < offset + slices.flatten.length := by
  induction slices generalizing offset with
  | nil => cases inside
  | cons _ _ ih =>
    obtain ⟨first, filled⟩ := forall_mem_cons.mp filled
    have longer := length_pos_of_ne_nil first
    rw [flatten_cons, length_append]
    rcases mem_cons.mp inside with rfl | later
    · omega
    · have := ih filled later
      omega

/-- The slices of a body at given cuts start there. -/
theorem positions_slicesAt (sorted : (start :: starts).Pairwise (· < ·))
    (bounded : ∀ cut ∈ starts, cut ≤ body.length) :
    positions start (slicesAt body (start :: starts)) = start :: starts := by
  induction starts generalizing start with
  | nil => rfl
  | cons next _ ih =>
    obtain ⟨inRange, bounded⟩ := forall_mem_cons.mp bounded
    have less : start < next := rel_of_pairwise_cons sorted mem_cons_self
    have length : ((body.take next).drop start).length = next - start := by
      rw [length_drop, length_take, Nat.min_eq_left inRange]
    rw [slicesAt, positions, length, Nat.add_sub_cancel' less.le, ih sorted.of_cons bounded]

theorem texts_single (token : Token) : texts [token] = token.text := by
  rw [texts, flatMap_cons, flatMap_nil, append_nil]

theorem texts_cons (token : Token) (tokens : List Token) :
    texts (token :: tokens) = token.text ++ texts tokens := flatMap_cons

theorem texts_append (first second : List Token) :
    texts (first ++ second) = texts first ++ texts second := flatMap_append

theorem texts_flatten (groups : List (List Token)) :
    (groups.map texts).flatten = texts groups.flatten := by
  induction groups with
  | nil => rfl
  | cons _ _ ih => rw [map_cons, flatten_cons, ih, flatten_cons, texts_append]

theorem texts_ne_nil (some : tokens ≠ []) (filled : ∀ token ∈ tokens, token.text ≠ []) :
    texts tokens ≠ [] := by
  obtain ⟨token, _, rfl⟩ := exists_cons_of_ne_nil some
  intro empty
  exact filled token mem_cons_self (append_eq_nil_iff.mp empty).1

theorem groups_filled (filled : ∀ token ∈ tokens, token.text ≠ []) :
    ∀ slice ∈ (groups [] tokens).map texts, slice ≠ [] := by
  intro slice inside
  obtain ⟨_, known, rfl⟩ := mem_map.mp inside
  exact texts_ne_nil (isGroup_of_mem known).ne_nil fun token there =>
    filled token (mem_of_mem_groups known there)

theorem length_texts_cons (token : Token) (tokens : List Token) :
    (texts (token :: tokens)).length = token.text.length + (texts tokens).length := by
  rw [texts_cons, length_append]

/-- A run that has been read starts a slice. -/
theorem mem_positions_flush (offset x : Nat) (filled : ∀ token ∈ run ++ tokens, token.text ≠ []) :
    x ∈ positions offset ((flush run).map texts) ↔ 0 < (texts run).length ∧ x = offset := by
  unfold flush
  split
  next empty => simp [empty, positions, texts]
  next some =>
    have longer := texts_ne_nil some fun token inside => filled token (mem_append_left _ inside)
    simp [positions, length_pos_iff.mpr longer]

/-- The groups start where the scan starts slices, and at the beginning. -/
theorem mem_positions_groups (offset x : Nat) (filled : ∀ token ∈ run ++ tokens, token.text ≠ []) :
    x ∈ positions offset ((groups run tokens).map texts) ↔
      (x = offset ∨ x ∈ startsFrom (offset + (texts run).length) tokens) ∧
        x < offset + (texts run).length + (texts tokens).length := by
  fun_induction groups run tokens generalizing offset with
  | case1 run =>
    have none : (texts []).length = 0 := rfl
    rw [mem_positions_flush offset x filled, none]
    simp only [startsFrom, not_mem_nil, or_false]
    omega
  | case2 run text rest ih =>
    rw [append_cons] at filled
    rw [ih offset filled]
    simp only [texts_append, texts_single, length_texts_cons, startsFrom, length_append,
      Token.text, Nat.add_assoc]
  | case3 run text rest ih =>
    have later := ih (offset + (texts run).length) fun token inside =>
      filled token (mem_append_right _ inside)
    rw [map_append, positions_append, mem_append, mem_positions_flush offset x filled,
      texts_flatten, flatten_flush, later]
    have longer := length_pos_iff.mpr (filled (.heading text) (by simp))
    simp only [length_texts_cons, startsFrom, Token.text, mem_cons, texts_single] at longer ⊢
    by_cases here : x ∈ startsFrom (offset + (texts run).length + text.length) rest <;>
      simp only [here, or_true, or_false, true_and] <;> omega
  | case4 run text rest ih =>
    have later := ih (offset + (texts run).length + text.length) fun token inside =>
      filled token (mem_append_right _ (mem_cons_of_mem _ inside))
    rw [map_append, positions_append, mem_append, mem_positions_flush offset x filled,
      texts_flatten, flatten_flush, map_cons, positions, texts_single, mem_cons, Token.text,
      later]
    have longer := length_pos_iff.mpr (filled (.cut text) (by simp))
    have none : (texts []).length = 0 := rfl
    simp only [length_texts_cons, startsFrom, Token.text, mem_cons, none, Nat.add_zero] at longer ⊢
    by_cases here : x ∈ startsFrom (offset + (texts run).length + text.length) rest <;>
      simp only [here, or_true, or_false, true_and] <;> omega

/-! ## Sorted starts -/

theorem mem_dedup : x ∈ dedup starts ↔ x ∈ starts := by
  fun_induction dedup starts with
  | case1 a rest ih => rw [ih]; simp
  | case2 a b rest other ih => rw [mem_cons, ih, ← mem_cons]
  | case3 => rfl

theorem sorted_dedup (sorted : starts.Pairwise (· ≤ ·)) : (dedup starts).Pairwise (· < ·) := by
  fun_induction dedup starts with
  | case1 a rest ih => exact ih sorted.tail
  | case2 a b rest other ih =>
    obtain ⟨least, sorted⟩ := pairwise_cons.mp sorted
    refine List.Pairwise.cons (fun x later => ?_) (ih sorted)
    have first := least b mem_cons_self
    rcases mem_cons.mp (mem_dedup.mp later) with rfl | later
    · omega
    · have second := (pairwise_cons.mp sorted).1 x later
      omega
  | case3 short notTwo =>
    cases short with
    | nil => exact List.Pairwise.nil
    | cons a rest =>
      cases rest with
      | nil => exact pairwise_singleton ..
      | cons b rest => exact absurd rfl (notTwo a b rest)

/-- The slices start at the beginning and at the starts inside the body, in order. -/
theorem sliceStarts_spec (body : Text) (starts : List Nat) :
    (sliceStarts body starts).Pairwise (· < ·) ∧
      ∀ x, x ∈ sliceStarts body starts ↔ x = 0 ∨ x ∈ starts ∧ x < body.length := by
  have sorted : ((dedup starts.mergeSort).filter (· < body.length)).Pairwise (· < ·) :=
    (sorted_dedup (by simpa using pairwise_mergeSort' (· ≤ ·) starts)).filter _
  have member : ∀ x, x ∈ (dedup starts.mergeSort).filter (· < body.length) ↔
      x ∈ starts ∧ x < body.length := fun x => by
    rw [mem_filter, mem_dedup, mem_mergeSort, decide_eq_true_iff]
  simp only [sliceStarts]
  split
  next first =>
    refine ⟨sorted, fun x => ?_⟩
    rw [member]
    refine ⟨.inr, fun known => known.elim ?_ id⟩
    rintro rfl
    exact (member 0).mp (mem_of_head? first)
  next notFirst =>
    refine ⟨List.Pairwise.cons (fun x later => ?_) sorted, fun x => ?_⟩
    · by_contra notLess
      obtain rfl : x = 0 := by omega
      -- a member that is 0 would come first
      obtain ⟨_, _, shape⟩ := exists_cons_of_ne_nil (ne_nil_of_mem later)
      rw [shape] at later sorted notFirst
      rcases mem_cons.mp later with rfl | tail
      · exact notFirst rfl
      · have less := (pairwise_cons.mp sorted).1 0 tail
        omega
    · rw [mem_cons, member]

section Slices

variable {N : Type} [JsonReader N]

/-- **The slices of a body are its groups of tokens.** -/
theorem splitBody_eq (reads : Reads N (Text.lines body) tokens) (some : body ≠ []) :
    splitBody N body = (groups [] tokens).map texts := by
  have whole : texts tokens = body := by rw [← reads.flatten, Text.lines_flatten]
  have filled := reads.text_ne_nil (Text.lined_lines body)
  have starts : (scanLines N body).starts = startsFrom 0 tokens :=
    scan_reads reads [] [] [] (Text.lines_flatten body).symm
  have sliced := groups_filled filled
  obtain ⟨sorted, member⟩ := sliceStarts_spec body (startsFrom 0 tokens)
  have same : sliceStarts body (startsFrom 0 tokens) =
      positions 0 ((groups [] tokens).map texts) := by
    refine sorted.eq_of_mem_iff (sorted_positions 0 sliced) fun x => ?_
    have longer := length_pos_iff.mpr some
    have none : (texts []).length = 0 := rfl
    rw [member, mem_positions_groups 0 x filled, whole, none]
    by_cases here : x ∈ startsFrom 0 tokens <;>
      simp only [here, true_and, false_and, or_true, or_false] <;> omega
  rw [splitBody, if_neg some, starts, same]
  refine slicesAt_positions [] ?_
  rw [texts_flatten, flatten_groups, nil_append, nil_append, whole]

theorem splitBody_filled (some : body ≠ []) : ∀ slice ∈ splitBody N body, slice ≠ [] := by
  obtain ⟨_, reads⟩ := exists_reads (N := N) (Text.lines body)
  rw [splitBody_eq reads some]
  exact groups_filled (reads.text_ne_nil (Text.lined_lines body))

theorem flatten_splitBody (N : Type) [JsonReader N] (body : Text) :
    (splitBody N body).flatten = body := by
  by_cases empty : body = []
  · rw [splitBody, if_pos empty, empty]; rfl
  · obtain ⟨_, reads⟩ := exists_reads (N := N) (Text.lines body)
    rw [splitBody_eq reads empty, texts_flatten, flatten_groups, nil_append, ← reads.flatten,
      Text.lines_flatten]

/-! ## Canonical bodies -/

/-- Only one line of a list is the first that closes. -/
theorem first_unique {inner inner' rest rest' : List Text} {close close' : Text}
    {closes : Text → Bool} (inside : ∀ line ∈ inner, closes line = false)
    (inside' : ∀ line ∈ inner', closes line = false) (closed : closes close = true)
    (closed' : closes close' = true) (same : inner ++ close :: rest = inner' ++ close' :: rest') :
    inner = inner' ∧ close = close' ∧ rest = rest' := by
  induction inner generalizing inner' with
  | nil =>
    cases inner' with
    | nil => exact ⟨rfl, cons.inj same⟩
    | cons =>
      obtain ⟨rfl, -⟩ := cons.inj same
      cases (inside' close mem_cons_self).symm.trans closed
  | cons line _ ih =>
    cases inner' with
    | nil =>
      obtain ⟨rfl, -⟩ := cons.inj same
      cases (inside line mem_cons_self).symm.trans closed'
    | cons =>
      obtain ⟨rfl, tail⟩ := cons.inj same
      obtain ⟨rfl, rest⟩ := ih (forall_mem_cons.mp inside).2 (forall_mem_cons.mp inside').2 tail
      exact ⟨rfl, rest⟩

theorem opens_of_neigeOpenKind (kind : (neigeOpenKind line).isSome = true) :
    opens line = some ('\x60', 3, true) := if_pos kind

/-- Tokens that are not cut are not a fence together. -/
theorem parseFence_uncut {group : List Token} (reads : Reads N (Text.lines (texts group)) group)
    (uncut : ∀ token ∈ group, token.isCut = false) :
    (parseFence (N := N) (texts group)) = none := by
  rw [Option.eq_none_iff_forall_ne_some]
  intro fence parsed
  obtain ⟨opener, inner, close, lines, kind, inside, closes⟩ := parseFence_lines parsed
  have opened := opens_of_neigeOpenKind kind
  have whole : (opener :: (inner ++ [close])).flatten = texts group := by
    rw [← lines, Text.lines_flatten]
  rw [lines] at reads
  generalize more : inner ++ [close] = rest at reads
  cases reads with
  | line plain => rw [opened] at plain; cases plain
  | closed opened' inside' closes' =>
    obtain ⟨rfl, rfl, rfl⟩ : '\x60' = _ ∧ 3 = _ ∧ true = _ := by
      simpa only [opened, Option.some.injEq, Prod.mk.injEq] using opened'
    obtain ⟨rfl, rfl, rfl⟩ := first_unique inside inside' closes closes' more
    have cut := uncut _ mem_cons_self
    rw [fenceToken, whole, parsed] at cut
    cases cut
  | unterminated opened' inside' =>
    obtain ⟨rfl, rfl, rfl⟩ : '\x60' = _ ∧ 3 = _ ∧ true = _ := by
      simpa only [opened, Option.some.injEq, Prod.mk.injEq] using opened'
    rw [inside' close (by rw [← more]; simp)] at closes
    cases closes

variable (N) in
/-- The token with a cut fence in canonical form. -/
def Token.canon : Token → Token
  | .cut text => .cut (canonical (N := N) text)
  | token => token

theorem Token.canon_of_uncut {token : Token} (uncut : token.isCut = false) :
    token.canon N = token := by
  cases token with
  | prose | heading => rfl
  | cut => cases uncut

theorem canon_lineToken (line : Text) : (lineToken line).canon N = lineToken line := by
  unfold lineToken
  split <;> rfl

theorem flush_canon (run : List Token) :
    flush (run.map (Token.canon N)) = (flush run).map (map (Token.canon N)) := by
  cases run <;> rfl

theorem groups_canon (run tokens : List Token) :
    groups (run.map (Token.canon N)) (tokens.map (Token.canon N)) =
      (groups run tokens).map (map (Token.canon N)) := by
  fun_induction groups run tokens with
  | case1 run => exact flush_canon run
  | case2 run text rest ih => rw [← ih, map_append]; rfl
  | case3 run text rest ih => rw [map_append, ← ih, ← flush_canon]; rfl
  | case4 run text rest ih =>
    rw [map_append, ← flush_canon]
    exact congrArg (fun later => flush (run.map _) ++ [Token.canon N (.cut text)] :: later) ih

/-- A well-formed fence in canonical form is read as one, and is cut. -/
theorem Reads.canonical {fence : NonProseFence N} (parsed : parseFence text = some fence)
    (more : Reads N (Text.lines rest) tokens) :
    Reads N (Text.lines (canonical (N := N) text ++ rest))
      (.cut (canonical (N := N) text) :: tokens) := by
  have form : Report.canonical (N := N) text = renderFence fence.kind fence.payload := by
    rw [Report.canonical, parsed]
  have ended : Text.Ended (renderFence fence.kind fence.payload) :=
    .inr (by rw [renderFence, getLast?_concat])
  obtain ⟨validKind, validPayload⟩ := parseFence_valid parsed
  have again := parseFence_renderFence validKind validPayload
  obtain ⟨opener, inner, close, lines, kind, inside, closes⟩ := parseFence_lines again
  have whole : (opener :: (inner ++ [close])).flatten = renderFence fence.kind fence.payload := by
    rw [← lines, Text.lines_flatten]
  have reads := Reads.closed (opens_of_neigeOpenKind kind) inside closes more
  have token : fenceToken N true (renderFence fence.kind fence.payload) =
      .cut (renderFence fence.kind fence.payload) := by
    rw [fenceToken, again]; rfl
  rw [whole, token] at reads
  rw [form, Text.lines_append ended, lines, cons_append, append_assoc]
  exact reads

theorem lines_append_canon (front : List Text) (more : Reads N rest tokens)
    (lined : Text.Lined (front ++ rest)) :
    Text.lines (front.flatten ++ texts (tokens.map (Token.canon N))) =
      front ++ Text.lines (texts (tokens.map (Token.canon N))) := by
  refine lined.lines_append ?_
  rintro rfl
  cases more
  rfl

/-- **Canonical fences leave the tokens where they are.** -/
theorem Reads.canon {lines : List Text} (reads : Reads N lines tokens) (lined : Text.Lined lines) :
    Reads N (Text.lines (texts (tokens.map (Token.canon N)))) (tokens.map (Token.canon N)) := by
  induction reads with
  | nil => exact .nil
  | @line line _ _ plain more ih =>
    have later := lines_append_canon [line] more lined
    rw [flatten_singleton] at later
    rw [map_cons, canon_lineToken, texts_cons, text_lineToken, later]
    exact .line plain (ih lined.tail)
  | closed opened inside closes more ih =>
    rw [append_cons, ← cons_append] at lined
    have tail := ih lined.of_append
    rw [map_cons, texts_cons]
    unfold fenceToken
    split
    next cut =>
      obtain ⟨-, isFence⟩ := Bool.and_eq_true_iff.mp cut
      obtain ⟨_, parsed⟩ := Option.isSome_iff_exists.mp isFence
      exact tail.canonical parsed
    next other =>
      have reads := Reads.closed opened inside closes tail
      rw [fenceToken, if_neg other] at reads
      rw [Token.canon_of_uncut rfl, Token.text, lines_append_canon _ more lined]
      simpa using reads
  | @unterminated opener inner _ _ _ opened inside =>
    rw [← append_nil (opener :: inner)] at lined
    rw [map_singleton, Token.canon_of_uncut rfl, texts_single, Token.text, lined.lines_flatten]
    exact .unterminated opened inside

/-- A group reads by itself. -/
theorem Reads.group {group : List Token} (reads : Reads N (Text.lines body) tokens)
    (known : group ∈ groups [] tokens) :
    Reads N (Text.lines (texts group)) group := by
  have lined := Text.lined_lines body
  obtain ⟨_, _, shape⟩ := append_of_mem known
  have whole := flatten_groups [] tokens
  rw [shape, flatten_append, flatten_cons, nil_append] at whole
  rw [← whole] at reads
  obtain ⟨_, _, lines, -, reads⟩ := reads.split
  obtain ⟨_, _, rfl, reads, -⟩ := reads.split
  rw [lines] at lined
  rwa [← reads.flatten, lined.of_append.lines_flatten]

theorem canonical_group {group : List Token} (isGroup : IsGroup group)
    (reads : Reads N (Text.lines (texts group)) group) :
    canonical (N := N) (texts group) = texts (group.map (Token.canon N)) := by
  rcases isGroup with ⟨_, rfl⟩ | ⟨-, uncut⟩
  · rw [map_singleton, texts_single, texts_single]
    rfl
  · have same : group.map (Token.canon N) = group.map id :=
      map_congr_left fun token inside => Token.canon_of_uncut (uncut token inside)
    rw [map_id] at same
    rw [canonical, parseFence_uncut reads uncut, same]

variable (N) in
/-- The body with each fence that is cut in its canonical form. -/
def canonicalBody (body : Text) : Text := ((splitBody N body).map (canonical (N := N))).flatten

/-- **The slices of a canonical body are the canonical slices.** -/
theorem splitBody_canonicalBody (body : Text) :
    splitBody N (canonicalBody N body) = (splitBody N body).map (canonical (N := N)) := by
  by_cases empty : body = []
  · subst empty
    rfl
  · obtain ⟨tokens, reads⟩ := exists_reads (N := N) (Text.lines body)
    have lined := Text.lined_lines body
    have isCanonical : (splitBody N body).map (canonical (N := N)) =
        (groups [] (tokens.map (Token.canon N))).map texts := by
      have parts : groups [] (tokens.map (Token.canon N)) = _ := groups_canon [] tokens
      rw [splitBody_eq reads empty, parts, map_map, map_map]
      refine map_congr_left fun group known => ?_
      exact canonical_group (isGroup_of_mem known) (reads.group known)
    have canon := reads.canon lined
    have text : canonicalBody N body = texts (tokens.map (Token.canon N)) := by
      rw [canonicalBody, isCanonical, texts_flatten, flatten_groups, nil_append]
    rw [← text] at canon
    rw [isCanonical]
    refine splitBody_eq canon ?_
    rw [text]
    refine texts_ne_nil ?_ (canon.text_ne_nil (Text.lined_lines _))
    intro none
    have nothing := reads.flatten
    rw [map_eq_nil_iff.mp none, Text.lines_flatten] at nothing
    exact empty nothing

/-- A slice starts on a line of its own. -/
theorem ended_of_splitBody (slices : splitBody N body = first ++ second) (more : second ≠ []) :
    Text.Ended first.flatten := by
  by_cases empty : body = []
  · rw [splitBody, if_pos empty] at slices
    cases first with
    | nil => exact .inl rfl
    | cons =>
      obtain ⟨-, none⟩ := cons.inj slices
      exact absurd (append_eq_nil_iff.mp none.symm).2 more
  · obtain ⟨tokens, reads⟩ := exists_reads (N := N) (Text.lines body)
    rw [splitBody_eq reads empty] at slices
    obtain ⟨_, after, whole, rfl, rfl⟩ := map_eq_append_iff.mp slices
    have tokenParts := flatten_groups [] tokens
    rw [whole, flatten_append, nil_append] at tokenParts
    rw [← tokenParts] at reads
    obtain ⟨_, _, lines, ownReads, restReads⟩ := reads.split
    rw [texts_flatten, ← ownReads.flatten]
    have lined := Text.lined_lines body
    rw [lines] at lined
    refine lined.ended ?_
    rintro rfl
    have some : after ≠ [] := fun none => more (by rw [none]; rfl)
    obtain ⟨group, others, rfl⟩ := exists_cons_of_ne_nil some
    have known : group ∈ groups [] tokens := by simp [whole]
    have filled : group ≠ [] := (isGroup_of_mem known).ne_nil
    generalize none : (group :: others).flatten = tokens at restReads
    cases restReads
    exact filled (append_eq_nil_iff.mp none).1

end Slices

end NeigeCalm.Report
