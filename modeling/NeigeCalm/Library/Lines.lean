import Mathlib.Algebra.GroupWithZero.Nat
import Mathlib.Data.List.Basic

/-!
# Texts and their lines

A text is the list of its characters.  This module has the few string functions
that line-based formats use: splitting at the first or the last separator, one
optional separator at the end, and the lines of a text with their endings.
-/

namespace NeigeCalm.Library

open List Option

/-- A text, as the list of its characters. -/
abbrev Text := List Char

instance : LawfulBEq Text := instLawfulBEq

namespace Text

/-- Before and after the first `sep`. -/
def splitOnce (sep : Char) : Text → Option (Text × Text)
  | [] => none
  | c :: rest =>
    if c = sep then some ([], rest)
    else (splitOnce sep rest).map fun (before, after) => (c :: before, after)

/-- Before and after the last `sep`. -/
def rsplitOnce (sep : Char) : Text → Option (Text × Text)
  | [] => none
  | c :: rest =>
    match rsplitOnce sep rest with
    | some (before, after) => some (c :: before, after)
    | none => if c = sep then some ([], rest) else none

/-- What follows `start` in a text that starts with it. -/
def stripStart (start text : Text) : Option Text :=
  if start.isPrefixOf text then some (text.drop start.length) else none

/-- The text without one `last` at its end, if it has one. -/
def dropLastChar (last : Char) (text : Text) : Text :=
  if text.getLast? = some last then text.dropLast else text

/-- The lines of a text, each with its newline. -/
def lines : Text → List Text
  | [] => []
  | c :: rest =>
    if c = '\n' then ['\n'] :: lines rest
    else match lines rest with
      | [] => [[c]]
      | line :: others => (c :: line) :: others

/-- One line, with its newline. -/
def IsLine (text : Text) : Prop := ∃ content, text = content ++ ['\n'] ∧ '\n' ∉ content

theorem splitOnce_append {before after : Text} (absent : sep ∉ before) :
    splitOnce sep (before ++ sep :: after) = some (before, after) := by
  induction before with
  | nil => simp [splitOnce]
  | cons _ _ ih =>
    simp only [mem_cons, not_or] at absent
    simp [splitOnce, Ne.symm absent.1, ih absent.2]

theorem splitOnce_eq_some {text before after : Text}
    (split : splitOnce sep text = some (before, after)) :
    text = before ++ sep :: after ∧ sep ∉ before := by
  induction text generalizing before with
  | nil => cases split
  | cons _ _ ih =>
    rw [splitOnce] at split
    split at split
    next same =>
      cases split
      exact ⟨by rw [same]; rfl, not_mem_nil⟩
    next different =>
      obtain ⟨_, found, same⟩ := map_eq_some_iff.mp split
      cases same
      obtain ⟨rfl, absent⟩ := ih found
      exact ⟨rfl, by simp [Ne.symm different, absent]⟩

theorem rsplitOnce_of_not_mem (absent : sep ∉ text) : rsplitOnce sep text = none := by
  induction text with
  | nil => rfl
  | cons _ _ ih =>
    simp only [mem_cons, not_or] at absent
    simp [rsplitOnce, ih absent.2, Ne.symm absent.1]

theorem rsplitOnce_append {before after : Text} (absent : sep ∉ after) :
    rsplitOnce sep (before ++ sep :: after) = some (before, after) := by
  induction before with
  | nil => simp [rsplitOnce, rsplitOnce_of_not_mem absent]
  | cons _ _ ih => simp [rsplitOnce, ih]

theorem rsplitOnce_eq_some {text before after : Text}
    (split : rsplitOnce sep text = some (before, after)) :
    text = before ++ sep :: after ∧ sep ∉ after := by
  have absent_of_none : ∀ {text : Text}, rsplitOnce sep text = none → sep ∉ text := by
    intro text
    induction text with
    | nil => exact fun _ => not_mem_nil
    | cons _ _ ih =>
      intro none
      rw [rsplitOnce] at none
      split at none
      · cases none
      next missing =>
        split at none
        · cases none
        next other =>
          rw [mem_cons, not_or]
          exact ⟨fun same => other same.symm, ih missing⟩
  induction text generalizing before with
  | nil => cases split
  | cons _ _ ih =>
    rw [rsplitOnce] at split
    split at split
    next found =>
      cases split
      obtain ⟨rfl, absent⟩ := ih found
      exact ⟨rfl, absent⟩
    next missing =>
      split at split
      next same =>
        cases split
        exact ⟨by rw [same]; rfl, absent_of_none missing⟩
      · cases split

theorem stripStart_append : stripStart start (start ++ rest) = some rest := by
  simp [stripStart]

theorem stripStart_eq_some (stripped : stripStart start text = some rest) :
    text = start ++ rest := by
  unfold stripStart at stripped
  split at stripped
  next starts =>
    obtain ⟨_, rfl⟩ := isPrefixOf_iff_prefix.mp starts
    cases stripped
    simp
  next => cases stripped

theorem dropLastChar_of_ne (other : text.getLast? ≠ some last) :
    dropLastChar last text = text := if_neg other

theorem eq_dropLastChar_or (last : Char) (text : Text) :
    text = dropLastChar last text ∨ text = dropLastChar last text ++ [last] := by
  unfold dropLastChar
  split
  next ends => exact .inr (dropLast_append_getLast? last ends).symm
  next => exact .inl rfl

theorem dropLastChar_append (last : Char) (text : Text) :
    dropLastChar last (text ++ [last]) = text := by
  simp [dropLastChar]

theorem lines_cons_ne_nil (c : Char) (rest : Text) : lines (c :: rest) ≠ [] := by
  rw [lines]
  split
  · simp
  · split <;> simp

/-- Nothing is lost in the lines. -/
theorem lines_flatten (text : Text) : (lines text).flatten = text := by
  induction text with
  | nil => rfl
  | cons _ _ ih =>
    rw [lines]
    split
    next newline => simp [ih, newline]
    next =>
      split
      next none => rw [none] at ih; simp [← ih]
      next some => rw [some] at ih; simp [← ih]

/-- Empty, or ended by a newline: what comes next starts a line. -/
def Ended (text : Text) : Prop := text = [] ∨ text.getLast? = some '\n'

theorem Ended.tail (ended : Ended (c :: rest)) : Ended rest := by
  cases rest with
  | nil => exact .inl rfl
  | cons =>
    rcases ended with empty | last
    · cases empty
    · exact .inr (by rwa [getLast?_cons_cons] at last)

/-- Lines do not reach over a line ending. -/
theorem lines_append (ended : Ended text) (rest : Text) :
    lines (text ++ rest) = lines text ++ lines rest := by
  induction text with
  | nil => rfl
  | cons c text ih =>
    rw [cons_append, lines, lines, ih ended.tail]
    split
    · rfl
    next other =>
      cases text with
      | nil =>
        rcases ended with empty | last
        · cases empty
        · exact absurd (some.inj last) other
      | cons d text =>
        cases found : lines (d :: text) with
        | nil => exact absurd found (lines_cons_ne_nil d text)
        | cons => rfl

theorem lines_of_isLine (isLine : IsLine line) (rest : Text) :
    lines (line ++ rest) = line :: lines rest := by
  obtain ⟨content, rfl, absent⟩ := isLine
  induction content with
  | nil => simp [lines]
  | cons _ _ ih =>
    rw [mem_cons, not_or] at absent
    rw [cons_append, cons_append, lines, if_neg (Ne.symm absent.1), ih absent.2]

theorem lines_of_open (filled : line ≠ []) (absent : '\n' ∉ line) : lines line = [line] := by
  induction line with
  | nil => exact absurd rfl filled
  | cons c rest ih =>
    rw [mem_cons, not_or] at absent
    rw [lines, if_neg (Ne.symm absent.1)]
    cases rest with
    | nil => rfl
    | cons d rest => rw [ih (cons_ne_nil d rest) absent.2]

/-- The lines of some text: only the last one may lack its newline. -/
inductive Lined : List Text → Prop
  | nil : Lined []
  | last (filled : line ≠ []) (absent : '\n' ∉ line) : Lined [line]
  | cons (isLine : IsLine line) (lined : Lined rest) :
    Lined (line :: rest)

theorem lined_lines (text : Text) : Lined (lines text) := by
  induction text with
  | nil => exact .nil
  | cons c _ ih =>
    rw [lines]
    split
    next newline => exact .cons ⟨[], rfl, not_mem_nil⟩ ih
    next other =>
      split
      next => exact .last (cons_ne_nil c []) (by simpa using Ne.symm other)
      next line _ found =>
        rw [found] at ih
        cases ih with
        | last _ absent =>
          exact .last (cons_ne_nil c line) (by simp [Ne.symm other, absent])
        | cons isLine lined =>
          obtain ⟨content, rfl, absent⟩ := isLine
          exact .cons ⟨c :: content, rfl, by simp [Ne.symm other, absent]⟩ lined

section Lined

theorem Lined.head (lined : Lined (line :: second)) :
    IsLine line ∧ Lined second ∨ second = [] ∧ line ≠ [] ∧ '\n' ∉ line := by
  cases lined with
  | last filled absent => exact .inr ⟨rfl, filled, absent⟩
  | cons isLine lined => exact .inl ⟨isLine, lined⟩

theorem Lined.tail (lined : Lined (line :: second)) : Lined second := by
  rcases lined.head with ⟨-, rest⟩ | ⟨rfl, -⟩
  · exact rest
  · exact .nil

section

variable (lined : Lined (first ++ second))

include lined

theorem Lined.of_append : Lined second := by
  induction first with
  | nil => exact lined
  | cons _ _ ih => exact ih lined.tail

/-- The first lines stay lines when the later ones are rewritten. -/
theorem Lined.lines_append (whole : second = [] → rest = []) :
    lines (first.flatten ++ rest) = first ++ lines rest := by
  induction first with
  | nil => rfl
  | cons _ _ ih =>
    rw [flatten_cons, append_assoc]
    rcases Lined.head lined with ⟨isLine, rest⟩ | ⟨none, filled, absent⟩
    · rw [lines_of_isLine isLine, ih rest, cons_append]
    · obtain ⟨rfl, rfl⟩ := append_eq_nil_iff.mp none
      simp [whole rfl, lines_of_open filled absent, lines]

theorem Lined.lines_flatten : lines first.flatten = first := by
  have whole := lined.lines_append (fun _ => rfl)
  rwa [append_nil, lines, append_nil] at whole

theorem Lined.ended (more : second ≠ []) : Ended first.flatten := by
  induction first with
  | nil => exact .inl rfl
  | cons _ _ ih =>
    rcases Lined.head lined with ⟨⟨_, rfl, -⟩, rest⟩ | ⟨none, -⟩
    · rcases ih rest with empty | last
      · exact .inr (by simp [empty])
      · exact .inr (by rw [flatten_cons, getLast?_append, last, some_or])
    · exact absurd (append_eq_nil_iff.mp none).2 more

end

theorem Lined.ne_nil (lined : Lined first) (inside : line ∈ first) : line ≠ [] := by
  induction lined with
  | nil => cases inside
  | last => rwa [mem_singleton.mp inside]
  | cons isLine _ ih =>
    rcases mem_cons.mp inside with rfl | later
    · obtain ⟨_, rfl, -⟩ := isLine
      simp
    · exact ih later

/-- Some of the lines of a text are the lines of a text. -/
theorem Lined.filter (lined : Lined first) (keep : Text → Bool) : Lined (first.filter keep) := by
  induction lined with
  | nil => exact .nil
  | @last line filled absent =>
    cases kept : keep line with
    | true => rw [filter_cons_of_pos kept]; exact .last filled absent
    | false => rw [filter_cons_of_neg (by simp [kept])]; exact .nil
  | @cons line _ isLine _ ih =>
    cases kept : keep line with
    | true => rw [filter_cons_of_pos kept]; exact .cons isLine ih
    | false => rw [filter_cons_of_neg (by simp [kept])]; exact ih

/-- Where the text does not end with a newline, its last line has none. -/
theorem Lined.exists_open (lined : Lined first) (filled : first ≠ [])
    (absent : first.flatten.getLast? ≠ some '\n') :
    ∃ front last, first = front ++ [last] ∧ '\n' ∉ last ∧ last ≠ [] ∧
      Lined (front ++ [last ++ ['\n']]) := by
  induction lined with
  | nil => exact absurd rfl filled
  | @last line some oneLine =>
    exact ⟨[], line, rfl, oneLine, some, .cons ⟨line, rfl, oneLine⟩ .nil⟩
  | @cons line rest isLine lined ih =>
    have some : rest ≠ [] := by
      rintro rfl
      obtain ⟨_, rfl, -⟩ := isLine
      exact absent (by simp)
    have flat : rest.flatten ≠ [] := by
      obtain ⟨_, _, rfl⟩ := exists_cons_of_ne_nil some
      exact fun empty => lined.ne_nil mem_cons_self (append_eq_nil_iff.mp empty).1
    rw [flatten_cons, getLast?_append, getLast?_eq_some_getLast flat,
      some_or, ← getLast?_eq_some_getLast flat] at absent
    obtain ⟨front, last, rfl, oneLine, filled, ended⟩ := ih some absent
    exact ⟨line :: front, last, rfl, oneLine, filled, .cons isLine ended⟩

end Lined

end Text

end NeigeCalm.Library
