import Mathlib.Data.Char
import Mathlib.Data.List.Lex
import Mathlib.Data.List.Sort
import NeigeCalm.Library.Lines

/-!
# JSON values, their texts and an exact parser

Texts are lists of characters.  `Json.parse` is a recursive descent parser with
a nesting limit, as JSON libraries have it: whitespace is free between tokens, a
later member replaces an earlier one of the same key, and a container nested
deeper than the limit is refused.  Objects keep their members in key order.

Numbers are abstract: a `JsonNumber` type reads number tokens and writes each
number as a token that reads back as it.

`Json.Valid depth v` are the values the parser can return.  The results here are
about tokens; a layout that puts tokens together proves its round trip from them.
-/

namespace NeigeCalm.Library

open List

/-! ## Number tokens -/

def isNumberChar (c : Char) : Bool :=
  c.isDigit || c = '-' || c = '+' || c = '.' || c = 'e' || c = 'E'

/-- At least one digit, and nothing else. -/
def isDigits (text : Text) : Bool := text ≠ [] && text.all Char.isDigit

/-- An exponent with its optional sign, or nothing. -/
def isExponent : Text → Bool
  | [] => true
  | c :: rest =>
    (c = 'e' || c = 'E') && isDigits (match rest with
      | '+' :: digits | '-' :: digits => digits
      | digits => digits)

/-- What may follow the integer part: an optional fraction, and an optional exponent. -/
def isFraction : Text → Bool
  | '.' :: rest =>
    isDigits (rest.takeWhile Char.isDigit) && isExponent (rest.dropWhile Char.isDigit)
  | text => isExponent text

/-- An optional minus, and an integer part that starts with a zero only if it is one. -/
def isNumber (token : Text) : Bool :=
  let digits := match token with
    | '-' :: rest => rest
    | text => text
  let int := digits.takeWhile Char.isDigit
  int ≠ [] && (int = ['0'] || int.head? ≠ some '0') && isFraction (digits.dropWhile Char.isDigit)

/-- The number token a text starts with, and the rest. -/
def lexNumber (text : Text) : Option (Text × Text) :=
  let token := text.takeWhile isNumberChar
  if isNumber token then some (token, text.dropWhile isNumberChar) else none

/-- `rest` cannot continue a number token. -/
def EndsNumber (rest : Text) : Prop := ∀ c ∈ rest.head?, isNumberChar c = false

/-- A number token is read as itself, whatever follows that cannot continue it. -/
theorem lexNumber_append (lexed : lexNumber token = some (token, [])) (stop : EndsNumber rest) :
    lexNumber (token ++ rest) = some (token, rest) := by
  unfold lexNumber at lexed ⊢
  simp only at lexed ⊢
  split at lexed
  next isNumber =>
    obtain ⟨whole, -⟩ := Prod.mk.inj (Option.some.inj lexed)
    have each := all_eq_true.mp (all_takeWhile (p := isNumberChar) (l := token))
    rw [whole] at each
    have ends : rest.takeWhile isNumberChar = [] ∧ rest.dropWhile isNumberChar = rest := by
      cases rest with
      | nil => exact ⟨rfl, rfl⟩
      | cons c => simp [stop c rfl]
    rw [whole] at isNumber
    rw [takeWhile_append_of_pos each, dropWhile_append_of_pos each, ends.1, ends.2, append_nil,
      if_pos isNumber]
  next => cases lexed

/-- A type of numbers written as tokens. -/
class JsonNumber (N : Type) where
  read : Text → Option N
  text : N → Text
  /-- A number is written as one token. -/
  token : ∀ n, lexNumber (text n) = some (text n, [])
  read_text : ∀ n, read (text n) = some n

/-- Numbers taken as their printed tokens. -/
def NumberToken := { token : Text // lexNumber token = some (token, []) }

instance : DecidableEq NumberToken := inferInstanceAs (DecidableEq { _t : Text // _ })

instance : JsonNumber NumberToken where
  read token := if h : lexNumber token = some (token, []) then some ⟨token, h⟩ else none
  text := Subtype.val
  token := Subtype.property
  read_text n := by rw [dif_pos n.property]; rfl

/-! ## String tokens -/

/-- A lower-case hexadecimal digit. -/
def hexDigit (n : Nat) : Char := if n < 10 then Char.ofNat (48 + n) else Char.ofNat (87 + n)

def hexValue (c : Char) : Option Nat :=
  if c.isDigit then some (c.toNat - 48)
  else if 'a' ≤ c ∧ c ≤ 'f' then some (c.toNat - 87)
  else if 'A' ≤ c ∧ c ≤ 'F' then some (c.toNat - 55)
  else none

/-- The code unit that four hexadecimal digits write. -/
def hex4 (a b c d : Char) : Option Nat := do
  let a ← hexValue a
  let b ← hexValue b
  let c ← hexValue c
  let d ← hexValue d
  return ((a * 16 + b) * 16 + c) * 16 + d

/-- How a character is written inside a string. -/
def escapeChar (c : Char) : Text :=
  if c = '"' then ['\\', '"']
  else if c = '\\' then ['\\', '\\']
  else if c = '\n' then ['\\', 'n']
  else if c = '\r' then ['\\', 'r']
  else if c = '\t' then ['\\', 't']
  else if c = Char.ofNat 8 then ['\\', 'b']
  else if c = Char.ofNat 12 then ['\\', 'f']
  else if c.toNat < 32 then
    ['\\', 'u', '0', '0', hexDigit (c.toNat / 16), hexDigit (c.toNat % 16)]
  else [c]

/-- The string token of a text. -/
def quote (s : Text) : Text := '"' :: s.flatMap escapeChar ++ ['"']

/-- The character that a one-letter escape stands for. -/
def unescape : Char → Option Char
  | '"' => some '"'
  | '\\' => some '\\'
  | '/' => some '/'
  | 'b' => some (Char.ofNat 8)
  | 'f' => some (Char.ofNat 12)
  | 'n' => some '\n'
  | 'r' => some '\r'
  | 't' => some '\t'
  | _ => none

/-- The text of a string token after its opening quote, and the rest.  Control
characters must be escaped, and surrogates must come in pairs. -/
def lexString : Text → Option (Text × Text)
  | [] => none
  | '"' :: rest => some ([], rest)
  | '\\' :: 'u' :: a :: b :: c :: d :: rest =>
    match hex4 a b c d with
    | none => none
    | some code =>
      if code < 0xD800 ∨ 0xE000 ≤ code then
        (lexString rest).map fun (s, rest) => (Char.ofNat code :: s, rest)
      else match rest with
        | '\\' :: 'u' :: e :: f :: g :: h :: rest =>
          match hex4 e f g h with
          | none => none
          | some low =>
            if code < 0xDC00 ∧ 0xDC00 ≤ low ∧ low < 0xE000 then
              (lexString rest).map fun (s, rest) =>
                (Char.ofNat (0x10000 + (code - 0xD800) * 0x400 + (low - 0xDC00)) :: s, rest)
            else none
        | _ => none
  | '\\' :: c :: rest =>
    match unescape c with
    | none => none
    | some c => (lexString rest).map fun (s, rest) => (c :: s, rest)
  | c :: rest =>
    if c.toNat < 32 ∨ c = '\\' then none
    else (lexString rest).map fun (s, rest) => (c :: s, rest)

theorem hexValue_hexDigit : ∀ n < 16, hexValue (hexDigit n) = some n := by decide

theorem lexString_escapeChar :
    lexString (escapeChar c ++ rest) = (lexString rest).map fun (s, rest) => (c :: s, rest) := by
  unfold escapeChar
  split
  next same => subst same; rfl
  next notQuote =>
    split
    next same => subst same; rfl
    next notBackslash =>
      split
      next same => subst same; rfl
      split
      next same => subst same; rfl
      split
      next same => subst same; rfl
      split
      next same => subst same; rfl
      split
      next same => subst same; rfl
      split
      next control =>
        have code : hex4 '0' '0' (hexDigit (c.toNat / 16)) (hexDigit (c.toNat % 16)) =
            some c.toNat := by
          have high := hexValue_hexDigit (c.toNat / 16) (by omega)
          have low := hexValue_hexDigit (c.toNat % 16) (by omega)
          have zero : hexValue '0' = some 0 := by decide
          simp only [hex4, zero, high, low, Option.bind_eq_bind, Option.bind_some, Option.pure_def,
            Option.some.injEq]
          omega
        simp only [cons_append, nil_append, lexString, code]
        rw [if_pos (by omega), Char.ofNat_toNat]
      next printable =>
        rw [cons_append, nil_append, lexString]
        · rw [if_neg (by rintro (control | same); exacts [printable control, notBackslash same])]
        · exact notQuote
        · exact fun a b d e rest same _ => notBackslash same
        · exact fun d rest same _ => notBackslash same

/-- A quoted text is read as itself. -/
theorem lexString_quote :
    lexString (s.flatMap escapeChar ++ '"' :: rest) = some (s, rest) := by
  induction s with
  | nil => rfl
  | cons c s ih => rw [flatMap_cons, append_assoc, lexString_escapeChar, ih]; rfl

/-! ## Values -/

/-- A JSON value.  The members of an object stand in key order. -/
inductive Json (N : Type) where
  | null
  | bool (b : Bool)
  | number (n : N)
  | string (s : Text)
  | array (items : List (Json N))
  | object (members : List (Text × Json N))

namespace Json

variable {N : Type}

/-- The value stored under `key`, written into members kept in key order. -/
def insertMember (key : Text) (value : Json N) :
    List (Text × Json N) → List (Text × Json N)
  | [] => [(key, value)]
  | (other, stored) :: rest =>
    if key < other then (key, value) :: (other, stored) :: rest
    else if key = other then (key, value) :: rest
    else (other, stored) :: insertMember key value rest

/-- The object of the members a text lists: a later one replaces an earlier one. -/
def ofMembers (members : List (Text × Json N)) : Json N :=
  .object (members.foldl (fun stored member => insertMember member.1 member.2 stored) [])

/-- What is stored under `key`. -/
def get (value : Json N) (key : Text) : Option (Json N) :=
  match value with
  | .object members => (members.find? (·.1 == key)).map (·.2)
  | _ => none

def asStr : Json N → Option Text
  | .string s => some s
  | _ => none

def isObject : Json N → Bool
  | .object _ => true
  | _ => false

def isScalar : Json N → Bool
  | .object _ | .array _ => false
  | _ => true

def isWhitespace (c : Char) : Bool := c = ' ' || c = '\n' || c = '\t' || c = '\r'

def skipWhitespace (text : Text) : Text := text.dropWhile isWhitespace

/-! ## The parser -/

section Containers

variable {α : Type}

/-- One element or more, with commas between them, up to the closing character. -/
def parseSeq (element : Text → Option (α × Text)) (close : Char) :
    Nat → Text → Option (List α × Text)
  | 0, _ => none
  | fuel + 1, text =>
    match element text with
    | none => none
    | some (first, rest) =>
      match skipWhitespace rest with
      | [] => none
      | c :: rest =>
        if c = close then some ([first], rest)
        else if c = ',' then
          (parseSeq element close fuel rest).map fun (more, rest) => (first :: more, rest)
        else none

/-- The elements of a container, after its opening character. -/
def parseElements (element : Text → Option (α × Text)) (close : Char) (fuel : Nat) (text : Text) :
    Option (List α × Text) :=
  match skipWhitespace text with
  | [] => none
  | c :: rest => if c = close then some ([], rest) else parseSeq element close fuel text

end Containers

/-- A key, a colon and a value. -/
def parseMember (value : Text → Option (Json N × Text)) (text : Text) :
    Option ((Text × Json N) × Text) :=
  match skipWhitespace text with
  | '"' :: rest =>
    match lexString rest with
    | none => none
    | some (key, rest) =>
      match skipWhitespace rest with
      | ':' :: rest => (value rest).map fun (value, rest) => ((key, value), rest)
      | _ => none
  | _ => none

section Parse

variable [JsonNumber N]

/-- The value a text starts with, and the rest.  `depth` is how many levels of
containers may still be opened. -/
def parseValue : Nat → Nat → Text → Option (Json N × Text)
  | 0, _, _ => none
  | fuel + 1, depth, text =>
    match skipWhitespace text with
    | 'n' :: 'u' :: 'l' :: 'l' :: rest => some (.null, rest)
    | 't' :: 'r' :: 'u' :: 'e' :: rest => some (.bool true, rest)
    | 'f' :: 'a' :: 'l' :: 's' :: 'e' :: rest => some (.bool false, rest)
    | '"' :: rest => (lexString rest).map fun (s, rest) => (.string s, rest)
    | '[' :: rest =>
      match depth with
      | 0 => none
      | depth + 1 =>
        (parseElements (parseValue fuel depth) ']' fuel rest).map fun (items, rest) =>
          (.array items, rest)
    | '\x7b' :: rest =>
      match depth with
      | 0 => none
      | depth + 1 =>
        (parseElements (parseMember (parseValue fuel depth)) '\x7d' fuel rest).map
          fun (members, rest) => (ofMembers members, rest)
    | text => do
      let token ← lexNumber text
      let n ← JsonNumber.read token.1
      return (.number n, token.2)

/-- The value a whole text writes, with containers nested at most `limit` deep. -/
def parse (limit : Nat) (text : Text) : Option (Json N) :=
  match parseValue (text.length + 1) limit text with
  | some (value, rest) => if skipWhitespace rest = [] then some value else none
  | none => none

/-! ## Reading token by token -/

/-- Whitespace only. -/
def Blank (text : Text) : Prop := ∀ c ∈ text, isWhitespace c = true

theorem Blank.nil : Blank [] := nofun

theorem Blank.single (space : isWhitespace c = true) : Blank [c] := by
  intro d inside
  obtain rfl := mem_singleton.mp inside
  exact space

theorem Blank.append (one : Blank first) (two : Blank second) : Blank (first ++ second) := by
  intro c inside
  rcases mem_append.mp inside with left | right
  · exact one c left
  · exact two c right

theorem skipWhitespace_append (h : Blank blank) (text : Text) :
    skipWhitespace (blank ++ text) = skipWhitespace text := by
  unfold skipWhitespace
  rw [dropWhile_append_of_pos h]

theorem skipWhitespace_cons (h : isWhitespace c = false) :
    skipWhitespace (c :: text) = c :: text := by
  simp [skipWhitespace, h]

/-- What closes a value, after spaces, cannot continue a number. -/
theorem endsNumber_append (space : Blank blank) (closes : isNumberChar c = false) :
    EndsNumber (blank ++ c :: rest) := by
  intro d same
  cases blank with
  | nil =>
    cases same
    exact closes
  | cons e more =>
    have isSpace := space e mem_cons_self
    simp only [isWhitespace, Bool.or_eq_true, decide_eq_true_iff] at isSpace
    cases same
    rcases isSpace with ((rfl | rfl) | rfl) | rfl <;> rfl

/-- The token of a scalar. -/
def scalarText : Json N → Text
  | .null => ['n', 'u', 'l', 'l']
  | .bool true => ['t', 'r', 'u', 'e']
  | .bool false => ['f', 'a', 'l', 's', 'e']
  | .number n => JsonNumber.text n
  | .string s => quote s
  | .array _ | .object _ => []

mutual

/-- The text of a value without any space. -/
def compact : Json N → Text
  | .array items => '[' :: compactItems items ++ [']']
  | .object members => '\x7b' :: compactMembers members ++ ['\x7d']
  | scalar => scalarText scalar

def compactItems : List (Json N) → Text
  | [] => []
  | [item] => compact item
  | item :: rest => compact item ++ ',' :: compactItems rest

def compactMembers : List (Text × Json N) → Text
  | [] => []
  | [(key, value)] => quote key ++ ':' :: compact value
  | (key, value) :: rest => quote key ++ ':' :: compact value ++ ',' :: compactMembers rest

end

theorem lexNumber_head (lexed : lexNumber text = some found) :
    ∃ c rest, text = c :: rest ∧ (c = '-' ∨ c.isDigit = true) := by
  unfold lexNumber at lexed
  simp only at lexed
  split at lexed
  next isNumber =>
    cases text with
    | nil => cases isNumber
    | cons c rest =>
      refine ⟨c, rest, rfl, ?_⟩
      rw [takeWhile_cons] at isNumber
      split at isNumber
      · by_contra other
        rw [not_or, Bool.not_eq_true] at other
        simp [Library.isNumber, other] at isNumber
      · cases isNumber
  next => cases lexed

variable {after : Text} {item value : Json N}
  {items : List (Json N)} {members : List (Text × Json N)}

theorem numberStart_ne (start : c = '-' ∨ c.isDigit = true) (other : d ≠ '-' ∧ d.isDigit = false) :
    c ≠ d := by
  rintro rfl
  rcases start with same | digit
  · exact other.1 same
  · cases other.2.symm.trans digit

theorem not_isWhitespace_of_numberStart (start : c = '-' ∨ c.isDigit = true) :
    isWhitespace c = false := by
  have ne : ∀ {d}, d ≠ '-' ∧ d.isDigit = false → c ≠ d := numberStart_ne start
  simp only [isWhitespace, decide_eq_false (ne (d := ' ') (by decide)),
    decide_eq_false (ne (d := '\n') (by decide)), decide_eq_false (ne (d := '\t') (by decide)),
    decide_eq_false (ne (d := '\r') (by decide)), Bool.or_false]

theorem parseValue_number {n : N} (space : Blank blank) (ends : EndsNumber rest) :
    parseValue (fuel + 1) depth (blank ++ (JsonNumber.text n ++ rest)) =
      some (.number n, rest) := by
  have lexed := lexNumber_append (JsonNumber.token n) ends
  obtain ⟨c, _, written, start⟩ := lexNumber_head (JsonNumber.token n)
  have ne : ∀ {d}, d ≠ '-' ∧ d.isDigit = false → c ≠ d := numberStart_ne start
  rw [parseValue, skipWhitespace_append space, written, cons_append,
    skipWhitespace_cons (not_isWhitespace_of_numberStart start)]
  rw [written, cons_append, ← written] at lexed
  split
  all_goals first
    | next same => exact absurd (cons.inj same).1 (ne (by decide))
    | simp [lexed, JsonNumber.read_text]

theorem parseValue_scalar (scalar : value.isScalar = true) (space : Blank blank)
    (ends : EndsNumber rest) :
    parseValue (fuel + 1) depth (blank ++ (scalarText value ++ rest)) = some (value, rest) := by
  cases value with
  | null =>
    rw [parseValue, skipWhitespace_append space]
    rfl
  | bool b =>
    rw [parseValue, skipWhitespace_append space]
    cases b <;> rfl
  | number => exact parseValue_number space ends
  | string =>
    rw [parseValue, skipWhitespace_append space, scalarText, quote, cons_append,
      cons_append, skipWhitespace_cons rfl, append_assoc]
    simp [lexString_quote]
  | array | object => cases scalar

theorem parseValue_array (space : Blank blank)
    (read : parseElements (parseValue fuel depth) ']' fuel text = some (items, rest)) :
    parseValue (fuel + 1) (depth + 1) (blank ++ '[' :: text) = some (.array items, rest) := by
  rw [parseValue, skipWhitespace_append space, skipWhitespace_cons rfl]
  simp [read]

theorem parseValue_object (space : Blank blank)
    (read : parseElements (parseMember (parseValue fuel depth)) '\x7d' fuel text =
      some (members, rest)) :
    parseValue (fuel + 1) (depth + 1) (blank ++ '\x7b' :: text) =
      some (ofMembers members, rest) := by
  rw [parseValue, skipWhitespace_append space, skipWhitespace_cons rfl]
  simp [read]

end Parse

/-! ## Containers -/

section Containers

variable {α : Type} {element : Text → Option (α × Text)} {close : Char} {lead gap tail after : Text}
  {items : List α}

/-- How a sequence is read, element by element. -/
inductive ReadSeq (element : Text → Option (α × Text)) (close : Char) :
    Text → List α → Text → Prop
  | last {text rest after : Text} {item : α} : element text = some (item, rest) →
      skipWhitespace rest = close :: after → ReadSeq element close text [item] after
  | more {text rest next after : Text} {item : α} {items : List α} :
      element text = some (item, rest) → skipWhitespace rest = ',' :: next →
      ReadSeq element close next items after → ReadSeq element close text (item :: items) after

theorem readSeq_of_parseSeq (read : parseSeq element close fuel text = some (items, rest)) :
    ReadSeq element close text items rest ∧ items.length ≤ fuel := by
  induction fuel generalizing text items with
  | zero => cases read
  | succ _ ih =>
    rw [parseSeq] at read
    split at read
    · cases read
    next first =>
      split at read
      · cases read
      next skipped =>
        split at read
        next closes =>
          cases read
          exact ⟨.last first (closes ▸ skipped), Nat.succ_le_succ (Nat.zero_le _)⟩
        next =>
          split at read
          next comma =>
            obtain ⟨_, others, same⟩ := Option.map_eq_some_iff.mp read
            cases same
            obtain ⟨seq, enough⟩ := ih others
            exact ⟨.more first (comma ▸ skipped) seq, Nat.succ_le_succ enough⟩
          next => cases read

theorem ReadSeq.parseSeq (seq : ReadSeq element close text items rest) (other : close ≠ ',')
    (enough : items.length ≤ fuel) :
    Json.parseSeq element close fuel text = some (items, rest) := by
  induction seq generalizing fuel with
  | last first skipped =>
    obtain _ | fuel := fuel
    · cases enough
    · simp only [Json.parseSeq, first, skipped, if_true]
  | more first skipped _ ih =>
    obtain _ | fuel := fuel
    · cases enough
    · simp only [Json.parseSeq, first, skipped, if_neg other.symm, if_true,
        ih (Nat.le_of_succ_le_succ enough), Option.map_some]

/-- A container is empty, or it is a sequence. -/
theorem parseElements_cases (read : parseElements element close fuel text = some (items, rest)) :
    items = [] ∧ skipWhitespace text = close :: rest ∨
      ReadSeq element close text items rest ∧ items.length ≤ fuel ∧
        ∀ element' : Text → Option (α × Text), parseElements element' close fuel text =
          Json.parseSeq element' close fuel text := by
  unfold parseElements at read ⊢
  split at read
  · cases read
  next skipped =>
    split at read
    next closes =>
      cases read
      exact .inl ⟨rfl, closes ▸ skipped⟩
    next more =>
      obtain ⟨seq, enough⟩ := readSeq_of_parseSeq read
      exact .inr ⟨seq, enough, fun _ => if_neg more⟩

/-- What holds of every element that is read holds of those of a container. -/
theorem forall_of_parseElements {P : α → Prop}
    (each : ∀ {text item rest}, element text = some (item, rest) → P item)
    (read : parseElements element close fuel text = some (items, rest)) :
    ∀ item ∈ items, P item := by
  rcases parseElements_cases read with ⟨rfl, -⟩ | ⟨seq, -⟩
  · nofun
  clear read
  induction seq with
  | last first => exact forall_mem_singleton.mpr (each first)
  | more first _ _ ih => exact forall_mem_cons.mpr ⟨each first, ih⟩

/-- What reads more elements reads more containers. -/
theorem parseElements_mono {element' : Text → Option (α × Text)}
    (each : ∀ text found, element text = some found → element' text = some found)
    (other : close ≠ ',') (read : parseElements element close fuel text = some (items, rest)) :
    parseElements element' close fuel text = some (items, rest) := by
  rcases parseElements_cases read with ⟨rfl, closed⟩ | ⟨seq, enough, same⟩
  · rw [parseElements, closed]
    exact if_pos rfl
  · rw [same]
    refine ReadSeq.parseSeq ?_ other enough
    clear read same enough
    induction seq with
    | last first skipped => exact .last (each _ _ first) skipped
    | more first skipped _ ih => exact .more (each _ _ first) skipped ih

/-- Texts with commas between them. -/
def separated (lead gap tail : Text) : List Text → Text
  | [] => []
  | [text] => lead ++ text ++ tail
  | text :: rest => lead ++ text ++ ',' :: gap ++ separated lead gap tail rest

theorem length_separated (lead gap tail : Text) (texts : List Text) :
    texts.length ≤ (separated lead gap tail texts).length + 1 ∧
      ∀ text ∈ texts, text.length ≤ (separated lead gap tail texts).length := by
  fun_induction separated lead gap tail texts with
  | case1 => exact ⟨by simp, nofun⟩
  | case2 => simp; omega
  | case3 _ _ _ ih =>
    simp only [length_append, length_cons, forall_mem_cons]
    refine ⟨by omega, by omega, fun text later => ?_⟩
    have := ih.2 text later
    omega

/-- The text is read as the element, wherever it stands. -/
def ReadsAs (element : Text → Option (α × Text)) (text : Text) (item : α) : Prop :=
  ∀ blank rest : Text, Blank blank → EndsNumber rest →
    element (blank ++ (text ++ rest)) = some (item, rest)

theorem readSeq_separated (reads : Forall₂ (ReadsAs element) texts items) (some : texts ≠ [])
    (leads : Blank lead) (gaps : Blank gap) (spaceAfter : Blank (tail ++ after))
    (closes : isNumberChar close = false ∧ isWhitespace close = false) (space : Blank blank) :
    ReadSeq element close (blank ++ (separated lead gap tail texts ++ (after ++ close :: rest)))
      items rest := by
  induction reads generalizing blank with
  | nil => exact absurd rfl some
  | @cons text item texts _ read reads ih =>
    have front := space.append leads
    cases texts with
    | nil =>
      cases reads
      have first := read _ (tail ++ after ++ close :: rest) front
        (endsNumber_append spaceAfter closes.1)
      refine .last (by simpa [separated] using first) ?_
      rw [← append_assoc, skipWhitespace_append spaceAfter, skipWhitespace_cons closes.2]
    | cons next texts =>
      refine .more ?_ (skipWhitespace_cons rfl) (ih (by simp) gaps)
      simpa [separated] using read _ _ front (endsNumber_append Blank.nil rfl)

/-- **A container is read from its elements**, in any layout. -/
theorem parseElements_separated (reads : Forall₂ (ReadsAs element) texts items)
    (starts : ∀ text ∈ texts, ∃ c rest, text = c :: rest ∧ isWhitespace c = false ∧ c ≠ close)
    (leads : Blank lead) (gaps : Blank gap) (spaceAfter : Blank (tail ++ after))
    (closes : isNumberChar close = false ∧ isWhitespace close = false ∧ close ≠ ',')
    (space : Blank blank) (enough : (separated lead gap tail texts).length < fuel) :
    parseElements element close fuel
        (blank ++ (separated lead gap tail texts ++ (after ++ close :: rest))) =
      some (items, rest) := by
  cases reads with
  | nil =>
    have tailBlank : Blank (blank ++ after) :=
      space.append fun c inside => spaceAfter c (mem_append_right _ inside)
    have skipped := skipWhitespace_append tailBlank (close :: rest)
    rw [skipWhitespace_cons closes.2.1, append_assoc] at skipped
    rw [parseElements, separated, nil_append, skipped]
    simp
  | @cons text item texts items read reads =>
    obtain ⟨c, more, written, notSpace, notEnd⟩ := starts text mem_cons_self
    have seq : ReadSeq element close (blank ++ (separated lead gap tail (text :: texts) ++
        (after ++ close :: rest))) (item :: items) rest :=
      readSeq_separated (.cons read reads) (by simp) leads gaps spaceAfter
        ⟨closes.1, closes.2.1⟩ space
    have first : ∃ tail', skipWhitespace (blank ++ (separated lead gap tail (text :: texts) ++
        (after ++ close :: rest))) = c :: tail' := by
      obtain ⟨others, shape⟩ : ∃ others, separated lead gap tail (text :: texts) =
          lead ++ (text ++ others) := by
        cases texts <;> exact ⟨_, by simp [separated]; rfl⟩
      have front := skipWhitespace_append (space.append leads)
        (c :: (more ++ (others ++ (after ++ close :: rest))))
      rw [skipWhitespace_cons notSpace] at front
      exact ⟨_, by rw [← front, shape, written]; simp⟩
    obtain ⟨_, skipped⟩ := first
    have count := (length_separated lead gap tail (text :: texts)).1
    rw [parseElements, skipped]
    simp only [if_neg notEnd]
    refine seq.parseSeq closes.2.2 ?_
    have same := reads.length_eq
    rw [length_cons] at count ⊢
    omega

end Containers

section Parse

variable [JsonNumber N] {value : Json N} {members : List (Text × Json N)}

/-! ## The values a parser returns -/

/-- Members in strict key order. -/
def Sorted (members : List (Text × Json N)) : Prop := members.Pairwise fun a b => a.1 < b.1

/-- Values nested at most `depth` deep whose objects are in key order. -/
inductive Valid : Nat → Json N → Prop
  | null {depth : Nat} : Valid depth .null
  | bool {depth : Nat} {b : Bool} : Valid depth (.bool b)
  | number {depth : Nat} {n : N} : Valid depth (.number n)
  | string {depth : Nat} {s : Text} : Valid depth (.string s)
  | array {depth : Nat} {items : List (Json N)} (each : ∀ item ∈ items, Valid depth item) :
    Valid (depth + 1) (.array items)
  | object {depth : Nat} {members : List (Text × Json N)} (sorted : Sorted members)
    (each : ∀ member ∈ members, Valid depth member.2) : Valid (depth + 1) (.object members)

section

omit [JsonNumber N]

theorem insertMember_last (above : ∀ member ∈ members, member.1 < key) :
    insertMember key value members = members ++ [(key, value)] := by
  induction members with
  | nil => rfl
  | cons member _ ih =>
    have less := above member mem_cons_self
    rw [insertMember, if_neg less.asymm, if_neg less.ne',
      ih fun other inRest => above other (mem_cons_of_mem _ inRest)]
    rfl

/-- Members in key order are stored as they stand. -/
theorem ofMembers_of_sorted (sorted : Sorted members) : ofMembers members = .object members := by
  suffices gen : ∀ stored : List (Text × Json N), Sorted (stored ++ members) →
      members.foldl (fun stored member => insertMember member.1 member.2 stored) stored =
        stored ++ members by
    rw [ofMembers, gen [] sorted]
    rfl
  clear sorted
  induction members with
  | nil => simp
  | cons member _ ih =>
    intro stored sorted
    have below : ∀ other ∈ stored, other.1 < member.1 := fun other inStored =>
      (pairwise_append.mp sorted).2.2 other inStored member mem_cons_self
    rw [foldl_cons, insertMember_last below, ih _ (by simpa [Sorted] using sorted)]
    simp

theorem mem_insertMember (inside : member ∈ insertMember key value members) :
    member = (key, value) ∨ member ∈ members := by
  induction members with
  | nil => exact .inl (mem_singleton.mp inside)
  | cons _ _ ih =>
    rw [insertMember] at inside
    split at inside
    · exact mem_cons.mp inside
    · split at inside
      · rcases mem_cons.mp inside with same | later
        · exact .inl same
        · exact .inr (mem_cons_of_mem _ later)
      · rcases mem_cons.mp inside with same | later
        · exact .inr (same ▸ mem_cons_self)
        · rcases ih later with same | old
          · exact .inl same
          · exact .inr (mem_cons_of_mem _ old)

/-- What is stored under another key stays. -/
theorem get_insertMember_of_ne (value : Json N) (different : other ≠ key) :
    (object (insertMember key value members)).get other = (object members).get other := by
  have apart : (key == other) = false := by simpa using Ne.symm different
  simp only [get]
  congr 1
  induction members with
  | nil => simp [insertMember, apart]
  | cons member _ ih =>
    rcases member with ⟨_, _⟩
    rw [insertMember]
    split
    · rw [find?_cons_of_neg (by simp [apart])]
    · split
      · rename_i same
        subst same
        rw [find?_cons_of_neg (by simp [apart]), find?_cons_of_neg (by simp [apart])]
      · simp only [find?_cons, ih]

theorem Sorted.insertMember (sorted : Sorted members) (key : Text) :
    Sorted (Json.insertMember key value members) := by
  induction members with
  | nil => exact pairwise_singleton _ _
  | cons _ _ ih =>
    obtain ⟨above, sortedRest⟩ := pairwise_cons.mp sorted
    rw [Json.insertMember]
    split
    next less =>
      refine pairwise_cons.mpr ⟨fun other inside => ?_, sorted⟩
      rcases mem_cons.mp inside with rfl | later
      · exact less
      · exact less.trans (above other later)
    next notLess =>
      split
      next same =>
        exact pairwise_cons.mpr ⟨fun other later => same ▸ above other later, sortedRest⟩
      next different =>
        refine pairwise_cons.mpr ⟨fun other inside => ?_, ih sortedRest⟩
        rcases mem_insertMember inside with rfl | later
        · exact lt_of_le_of_ne (not_lt.mp notLess) (Ne.symm different)
        · exact above other later

theorem Valid.ofMembers (each : ∀ member ∈ members, Valid depth member.2) :
    Valid (depth + 1) (Json.ofMembers members) := by
  suffices gen : ∀ stored : List (Text × Json N), Sorted stored →
      (∀ member ∈ stored, Valid depth member.2) →
      Valid (depth + 1) (.object (members.foldl
        (fun stored member => Json.insertMember member.1 member.2 stored) stored)) by
    exact gen [] List.Pairwise.nil nofun
  induction members with
  | nil => exact fun stored sorted valid => .object sorted valid
  | cons member _ ih =>
    intro stored sorted valid
    refine ih (fun other inRest => each other (mem_cons_of_mem _ inRest)) _
      (sorted.insertMember member.1) fun other inside => ?_
    rcases mem_insertMember inside with rfl | old
    · exact each member mem_cons_self
    · exact valid other old

end

omit [JsonNumber N] in
/-- The value of a member is read as a value. -/
theorem parseMember_cases {read : Text → Option (Json N × Text)}
    (found : parseMember read text = some ((key, value), rest)) :
    ∃ text', read text' = some (value, rest) := by
  unfold parseMember at found
  split at found
  · split at found
    · cases found
    · split at found
      · obtain ⟨_, inner, same⟩ := Option.map_eq_some_iff.mp found
        cases same
        exact ⟨_, inner⟩
      · cases found
  · cases found

omit [JsonNumber N] in
theorem parseMember_mono {read read' : Text → Option (Json N × Text)}
    (each : ∀ text found, read text = some found → read' text = some found)
    (found : parseMember read text = some member) : parseMember read' text = some member := by
  unfold parseMember at found ⊢
  split at found
  · split at found
    · cases found
    · split at found
      · obtain ⟨_, inner, same⟩ := Option.map_eq_some_iff.mp found
        rw [each _ _ inner]
        exact congrArg some same
      · cases found
  · cases found

/-- A value is read from the tokens of its parts, so it is nested as its text is. -/
theorem parseValue_valid (read : parseValue fuel depth text = some (value, rest)) :
    Valid depth value := by
  induction fuel generalizing depth text value rest with
  | zero => cases read
  | succ _ ih =>
    rw [parseValue] at read
    split at read
    · cases read; exact .null
    iterate 2 · cases read; exact .bool
    · obtain ⟨_, -, same⟩ := Option.map_eq_some_iff.mp read
      cases same
      exact .string
    iterate 2
      · split at read
        · cases read
        · obtain ⟨_, found, same⟩ := Option.map_eq_some_iff.mp read
          cases same
          first
          | exact .array (forall_of_parseElements ih found)
          | exact .ofMembers (forall_of_parseElements (fun found =>
              (parseMember_cases found).elim fun _ => ih) found)
    · simp only [Option.bind_eq_bind, Option.bind_eq_some_iff, Option.pure_def, Option.some.injEq,
        Prod.mk.injEq] at read
      obtain ⟨_, -, _, -, rfl, -⟩ := read
      exact .number

theorem parse_valid (read : parse limit text = some value) : Valid limit value := by
  unfold parse at read
  split at read
  next found =>
    split at read
    · cases read
      exact parseValue_valid found
    · cases read
  · cases read

/-! ## A higher limit -/

omit [JsonNumber N] in
theorem Valid.mono (valid : Valid depth value) (below : depth ≤ limit) : Valid limit value := by
  induction valid generalizing limit with
  | null => exact .null
  | bool => exact .bool
  | number => exact .number
  | string => exact .string
  | array _ ih =>
    obtain ⟨limit, rfl⟩ : ∃ n, limit = n + 1 := ⟨limit - 1, by omega⟩
    exact .array fun item inside => ih item inside (by omega)
  | object sorted _ ih =>
    obtain ⟨limit, rfl⟩ : ∃ n, limit = n + 1 := ⟨limit - 1, by omega⟩
    exact .object sorted fun member inside => ih member inside (by omega)

/-- What is read within a limit is read the same within a higher one. -/
theorem parseValue_higher {found : Json N × Text} (read : parseValue fuel depth text = some found) :
    parseValue fuel (depth + 1) text = some found := by
  induction fuel generalizing depth text found with
  | zero => cases read
  | succ _ ih =>
    rw [parseValue] at read ⊢
    split at read
    iterate 4 · exact read
    iterate 2
      · cases depth with
        | zero => cases read
        | succ =>
          obtain ⟨_, inside, same⟩ := Option.map_eq_some_iff.mp read
          dsimp only
          first
          | rw [parseElements_mono (fun _ _ => ih) (by decide) inside]
          | rw [parseElements_mono (fun _ _ => parseMember_mono fun _ _ => ih) (by decide) inside]
          exact congrArg some same
    · exact read

theorem parse_mono (read : parse limit text = some value) (below : limit ≤ higher) :
    parse higher text = some value := by
  induction higher, below using Nat.le_induction with
  | base => exact read
  | succ _ _ ih =>
    unfold parse at ih ⊢
    split at ih
    next found => rw [parseValue_higher found]; exact ih
    next => cases ih

end Parse

end Json

end NeigeCalm.Library
