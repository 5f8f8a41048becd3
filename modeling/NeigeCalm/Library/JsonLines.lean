import NeigeCalm.Library.Json

/-!
# Lines of JSON text

A string token holds no raw newline, so every line of a JSON text starts with a token.
A character that starts no token therefore starts no line (`startsNoLine_of_parse`),
which is what lets a line-based format carry JSON between lines of its own.
-/

namespace NeigeCalm.Library

open List

namespace Json

/-- The characters that start a token which is not a digit. -/
def tokenMarks : List Char := ['n', 't', 'f', '"', '[', ']', '\x7b', '\x7d', ',', ':', '-']

/-- The character starts no token and is no space. -/
def Stray (mark : Char) : Prop :=
  isWhitespace mark = false ∧ mark.isDigit = false ∧ mark ∉ tokenMarks

instance : DecidablePred Stray := fun mark => by unfold Stray; infer_instance

/-- `mark` is not the first character of a line, up to spaces and tabs.  The flag says
whether the text starts a line. -/
def startsNoLine (mark : Char) : Bool → Text → Bool
  | _, [] => true
  | atStart, c :: rest =>
    !(atStart && c = mark) &&
      startsNoLine mark (c = '\n' || (atStart && (c = ' ' || c = '\t'))) rest

theorem startsNoLine_inside (sameLine : c ≠ '\n') :
    startsNoLine mark false (c :: text) = startsNoLine mark false text := by
  simp [startsNoLine, sameLine]

theorem startsNoLine_token (notSpace : isWhitespace c = false) (other : c ≠ mark) :
    startsNoLine mark atStart (c :: text) = startsNoLine mark false text := by
  have notNewline : c ≠ '\n' := by rintro rfl; cases notSpace
  have notBlank : c ≠ ' ' := by rintro rfl; cases notSpace
  have notTab : c ≠ '\t' := by rintro rfl; cases notSpace
  simp [startsNoLine, other, notNewline, notBlank, notTab]

theorem startsNoLine_skip (stray : Stray mark) (atStart : Bool) (text : Text) :
    ∃ atStart', startsNoLine mark atStart text =
      startsNoLine mark atStart' (skipWhitespace text) := by
  induction text generalizing atStart with
  | nil => exact ⟨atStart, rfl⟩
  | cons c _ ih =>
    by_cases space : isWhitespace c = true
    · have other : c ≠ mark := by rintro rfl; rw [stray.1] at space; cases space
      obtain ⟨after, same⟩ := ih (c = '\n' || (atStart && (c = ' ' || c = '\t')))
      refine ⟨after, ?_⟩
      rw [skipWhitespace, dropWhile_cons_of_pos space, ← skipWhitespace, ← same]
      simp [startsNoLine, other]
    · exact ⟨atStart, by rw [skipWhitespace_cons (Bool.not_eq_true _ ▸ space)]⟩

/-- The first token after spaces puts the rest inside its line. -/
theorem startsNoLine_of_skip (stray : Stray mark) (skipped : skipWhitespace text = c :: rest)
    (token : c ∈ tokenMarks) : startsNoLine mark atStart text = startsNoLine mark false rest := by
  obtain ⟨_, same⟩ := startsNoLine_skip stray atStart text
  have notSpace : tokenMarks.all (isWhitespace · = false) = true := by decide
  have other : c ≠ mark := by
    rintro rfl
    exact stray.2.2 token
  rw [same, skipped, startsNoLine_token (by simpa using all_eq_true.mp notSpace c token) other]

/-- Four hexadecimal digits stay in their line. -/
theorem startsNoLine_hex4 (digits : hex4 a b c d = some code) :
    startsNoLine mark false (a :: b :: c :: d :: text) = startsNoLine mark false text := by
  have sameLine : ∀ {c : Char} {n : Nat}, hexValue c = some n → c ≠ '\n' := by
    rintro c n digit rfl
    cases digit
  simp only [hex4, Option.bind_eq_bind, Option.bind_eq_some_iff] at digits
  obtain ⟨_, one, _, two, _, three, _, four, -⟩ := digits
  rw [startsNoLine_inside (sameLine one), startsNoLine_inside (sameLine two),
    startsNoLine_inside (sameLine three), startsNoLine_inside (sameLine four)]

theorem lexed_rest (lexed : ((lexString text).map fun (s, rest) => (c :: s, rest)) = some found) :
    ∃ s, lexString text = some (s, found.2) := by
  obtain ⟨⟨s, _⟩, inner, rfl⟩ := Option.map_eq_some_iff.mp lexed
  exact ⟨s, inner⟩

/-- A string token holds no newline. -/
theorem startsNoLine_lexString (lexed : lexString text = some found) :
    startsNoLine mark false text = startsNoLine mark false found.2 := by
  have escape : ∀ rest, startsNoLine mark false ('\\' :: rest) = startsNoLine mark false rest :=
    fun rest => startsNoLine_inside (by decide)
  have letter : ∀ rest, startsNoLine mark false ('u' :: rest) = startsNoLine mark false rest :=
    fun rest => startsNoLine_inside (by decide)
  fun_induction lexString text generalizing found with
  | case1 | case3 | case5 | case7 | case8 | case9 | case11 => cases lexed
  | case2 rest =>
    cases lexed
    exact startsNoLine_inside (by decide)
  | case4 a b c d rest code digits _ ih =>
    obtain ⟨s, inner⟩ := lexed_rest lexed
    rw [escape, letter, startsNoLine_hex4 digits, ih inner]
  | case6 a b c d code digits _ e f g h rest low more _ ih =>
    obtain ⟨s, inner⟩ := lexed_rest lexed
    rw [escape, letter, startsNoLine_hex4 digits, escape, letter, startsNoLine_hex4 more, ih inner]
  | case10 c rest _ d unescaped ih =>
    obtain ⟨s, inner⟩ := lexed_rest lexed
    have sameLine : c ≠ '\n' := by rintro rfl; cases unescaped
    rw [escape, startsNoLine_inside sameLine, ih inner]
  | case12 c rest _ _ _ printable ih =>
    obtain ⟨s, inner⟩ := lexed_rest lexed
    have sameLine : c ≠ '\n' := by rintro rfl; exact printable (.inl (by decide))
    rw [startsNoLine_inside sameLine, ih inner]

/-! ## Numbers -/

theorem startsNoLine_inside_append (token : Text) (sameLine : ∀ c ∈ token, c ≠ '\n') :
    startsNoLine mark false (token ++ rest) = startsNoLine mark false rest := by
  induction token with
  | nil => rfl
  | cons c _ ih =>
    rw [cons_append, startsNoLine_inside (sameLine c mem_cons_self),
      ih fun d later => sameLine d (mem_cons_of_mem _ later)]

/-- A number token stays in its line. -/
theorem startsNoLine_lexNumber (stray : Stray mark) (lexed : lexNumber text = some found) :
    startsNoLine mark atStart text = startsNoLine mark false found.2 := by
  obtain ⟨c, more, rfl, start⟩ := lexNumber_head lexed
  have notSpace := not_isWhitespace_of_numberStart start
  have other : c ≠ mark :=
    numberStart_ne start ⟨fun same => stray.2.2 (by rw [same]; decide), stray.2.1⟩
  have whole : c :: more = (c :: more).takeWhile isNumberChar ++ found.2 := by
    unfold lexNumber at lexed
    simp only at lexed
    split at lexed <;> cases lexed
    exact takeWhile_append_dropWhile.symm
  have sameLine : ∀ d ∈ (c :: more).takeWhile isNumberChar, d ≠ '\n' := by
    rintro d inside rfl
    exact absurd (all_eq_true.mp all_takeWhile _ inside) (by decide)
  have notNewline : c ≠ '\n' := by rintro rfl; cases notSpace
  calc startsNoLine mark atStart (c :: more)
      = startsNoLine mark false more := startsNoLine_token notSpace other
    _ = startsNoLine mark false (c :: more) := (startsNoLine_inside notNewline).symm
    _ = startsNoLine mark false found.2 := by rw [whole, startsNoLine_inside_append _ sameLine]

/-! ## Whole texts -/

section Parse

variable {N : Type}

/-- Reading puts the rest inside a line, whether or not the text started one. -/
def StaysInLine {α : Type} (mark : Char) (read : Text → Option (α × Text)) : Prop :=
  ∀ {text found atStart}, read text = some found →
    startsNoLine mark atStart text = startsNoLine mark false found.2

theorem staysInLine_elements {α : Type} {element : Text → Option (α × Text)} {close : Char}
    (stray : Stray mark) (stays : StaysInLine mark element) (closes : close ∈ tokenMarks) :
    StaysInLine mark (parseElements element close fuel) := by
  intro text (items, rest) atStart read
  rcases parseElements_cases read with ⟨-, closed⟩ | ⟨seq, -⟩
  · exact startsNoLine_of_skip stray closed closes
  clear read
  induction seq generalizing atStart with
  | last first skipped => rw [stays first, startsNoLine_of_skip stray skipped closes]
  | more first skipped _ ih => rw [stays first, startsNoLine_of_skip stray skipped (by decide), ih]

theorem staysInLine_member {value : Text → Option (Json N × Text)} (stray : Stray mark)
    (stays : StaysInLine mark value) : StaysInLine mark (parseMember value) := by
  intro text found atStart read
  unfold parseMember at read
  split at read
  next opened =>
    rw [startsNoLine_of_skip stray opened (by decide)]
    split at read
    · cases read
    next lexed =>
      rw [startsNoLine_lexString lexed]
      split at read
      next colon =>
        obtain ⟨_, inner, rfl⟩ := Option.map_eq_some_iff.mp read
        rw [startsNoLine_of_skip stray colon (by decide), stays inner]
      next => cases read
  next => cases read

variable [JsonNumber N]

theorem staysInLine_value (stray : Stray mark) :
    StaysInLine mark (parseValue fuel depth : Text → Option (Json N × Text)) := by
  induction fuel generalizing depth with
  | zero => exact nofun
  | succ _ ih =>
    intro text found atStart read
    rw [parseValue] at read
    split at read
    iterate 3
      next skipped =>
        cases read
        rw [startsNoLine_of_skip stray skipped (by decide)]
        simp [startsNoLine_inside]
    next skipped =>
      obtain ⟨inner, lexed, rfl⟩ := Option.map_eq_some_iff.mp read
      rw [startsNoLine_of_skip stray skipped (by decide), startsNoLine_lexString lexed]
    iterate 2
      next skipped =>
        rw [startsNoLine_of_skip stray skipped (by decide)]
        split at read
        · cases read
        · obtain ⟨_, inside, rfl⟩ := Option.map_eq_some_iff.mp read
          first
          | exact staysInLine_elements stray ih (by decide) inside
          | exact staysInLine_elements stray (staysInLine_member stray ih) (by decide) inside
    next =>
      simp only [Option.bind_eq_bind, Option.bind_eq_some_iff, Option.pure_def,
        Option.some.injEq] at read
      obtain ⟨_, lexed, _, -, rfl⟩ := read
      obtain ⟨_, same⟩ := startsNoLine_skip stray atStart text
      rw [same, startsNoLine_lexNumber stray lexed]

/-- **No line of a JSON text starts with a stray character.** -/
theorem startsNoLine_of_parse (stray : Stray mark) {value : Json N}
    (read : parse limit text = some value) : startsNoLine mark true text = true := by
  unfold parse at read
  split at read
  next found =>
    split at read
    next blank =>
      obtain ⟨_, same⟩ := startsNoLine_skip stray false _
      rw [staysInLine_value stray found, same, blank, startsNoLine]
    next => cases read
  next => cases read

end Parse

/-! ## The lines of such a text -/

theorem startsNoLine_of_append (none : startsNoLine mark atStart (text ++ rest) = true) :
    startsNoLine mark atStart text = true := by
  induction text generalizing atStart with
  | nil => rfl
  | cons _ _ ih =>
    rw [cons_append, startsNoLine, Bool.and_eq_true] at none
    rw [startsNoLine, none.1, ih none.2, Bool.and_true]

theorem startsNoLine_concat (other : c ≠ mark) :
    startsNoLine mark atStart (text ++ [c]) = startsNoLine mark atStart text := by
  induction text generalizing atStart with
  | nil => simp [startsNoLine, other]
  | cons _ _ ih => rw [cons_append, startsNoLine, startsNoLine, ih]

theorem startsNoLine_after (isLine : Text.IsLine line)
    (none : startsNoLine mark atStart (line ++ rest) = true) :
    startsNoLine mark true rest = true := by
  obtain ⟨content, rfl, absent⟩ := isLine
  induction content generalizing atStart with
  | nil =>
    rw [nil_append, cons_append, startsNoLine, Bool.and_eq_true] at none
    exact none.2
  | cons _ _ ih =>
    rw [mem_cons, not_or] at absent
    rw [cons_append, cons_append, startsNoLine, Bool.and_eq_true] at none
    exact ih absent.2 none.2

theorem startsNoLine_of_mem (lined : Text.Lined lines)
    (none : startsNoLine mark true lines.flatten = true) (inside : line ∈ lines) :
    startsNoLine mark true line = true := by
  induction lined with
  | nil => cases inside
  | last => rwa [flatten_singleton, ← mem_singleton.mp inside] at none
  | cons isLine _ ih =>
    rw [flatten_cons] at none
    rcases mem_cons.mp inside with rfl | later
    · exact startsNoLine_of_append none
    · exact ih (startsNoLine_after isLine none) later

/-- Blanks do not hide the character. -/
theorem startsNoLine_blanks (each : ∀ c ∈ blanks, c = ' ' ∨ c = '\t') :
    startsNoLine mark true (blanks ++ mark :: text) = false := by
  induction blanks with
  | nil => simp [startsNoLine]
  | cons _ _ ih =>
    obtain ⟨blank, others⟩ := forall_mem_cons.mp each
    rw [cons_append, startsNoLine]
    rcases blank with rfl | rfl <;> simp [ih others]

end Json

/-! ## A reader as a parameter -/

/-- A JSON reader with a nesting limit, such as a library brings: its users rest on these laws
alone. -/
class JsonReader (N : Type) extends JsonNumber N where
  parse : Nat → Text → Option (Json N)
  /-- A JSON text is read as the value it writes. -/
  reads {limit : Nat} {text : Text} {value : Json N} :
    Json.parse limit text = some value → parse limit text = some value
  /-- The empty text holds no value. -/
  empty (limit : Nat) : parse limit [] = none
  /-- What is read has distinct keys in order, and nests no deeper than the limit. -/
  valid {limit : Nat} {text : Text} {value : Json N} :
    parse limit text = some value → Json.Valid limit value
  /-- A higher limit reads no less. -/
  mono {limit higher : Nat} {text : Text} {value : Json N} :
    parse limit text = some value → limit ≤ higher → parse higher text = some value
  /-- A line of what is read starts with a token. -/
  lines {limit : Nat} {text : Text} {value : Json N} {mark : Char} :
    parse limit text = some value → Json.Stray mark → Json.startsNoLine mark true text = true

instance : JsonReader NumberToken where
  parse := Json.parse
  reads := id
  empty _ := rfl
  valid := Json.parse_valid
  mono := Json.parse_mono
  lines read stray := Json.startsNoLine_of_parse stray read

end NeigeCalm.Library
