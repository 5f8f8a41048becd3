import NeigeCalm.Library.Text
import NeigeCalm.Report.Fence

/-!
# Cutting a body into slices

A flat body is cut at line-start H1 and H2 headings outside fenced code, and every
well-formed `neige-block` fence is cut out as a slice of its own; a malformed one reads
as prose and is reported.  Offsets count characters; the source's messages give them in
bytes.
-/

namespace NeigeCalm.Report

open Library

/-! ## Lines -/

def isH1OrH2 (line : Text) : Bool :=
  "# ".toList.isPrefixOf line || "## ".toList.isPrefixOf line

/-- The length of the run of markers a line starts with, if it is a fence. -/
def fenceRun (line : Text) (marker : Char) : Option Nat :=
  let length := (line.takeWhile (· = marker)).length
  if 3 ≤ length then some length else none

/-- A line without up to three leading spaces. -/
def stripFenceIndent (line : Text) : Text :=
  let indent := min 4 (line.takeWhile (· = ' ')).length
  if indent ≤ 3 then line.drop indent else line

def fenceTailIsBlank (line : Text) (run : Nat) : Bool :=
  (line.drop run).all fun c => c = ' ' || c = '\t'

/-- The marker and length of the fence that a line opens. -/
def openingFence (line : Text) : Option (Char × Nat) :=
  let line := stripFenceIndent line
  ['\x60', '~'].findSome? fun marker =>
    ((fenceRun line marker).filter fun length =>
      marker ≠ '\x60' || !(line.drop length).contains '\x60').map fun length => (marker, length)

/-- A line that closes a fence of the marker with at least `minimum` of them. -/
def closesFence (marker : Char) (minimum : Nat) (line : Text) : Bool :=
  let fenceLine := stripFenceIndent line
  (fenceRun fenceLine marker).any fun length =>
    minimum ≤ length && fenceTailIsBlank fenceLine length

/-- A line without its ending. -/
def lineContent (lineWithEnding : Text) : Text :=
  Text.dropLastChar '\r' (Text.dropLastChar '\n' lineWithEnding)

/-! ## Messages -/

/-- How many bytes the first `offset` characters take. -/
def byteOffset (body : Text) (offset : Nat) : Text :=
  (Nat.repr ((body.take offset).map Char.utf8Size).sum).toList

def malformedFenceError (body : Text) (start : Nat) : Text :=
  "malformed ```neige-block fence starting at byte ".toList ++ byteOffset body start ++
    (": the fence interior must be a single JSON object and the opening/closing ``` lines " ++
      "must be unindented and undecorated").toList

def unterminatedFenceError (body : Text) (start : Nat) : Text :=
  "unterminated ```neige-block fence starting at byte ".toList ++ byteOffset body start ++
    " (missing closing ``` line)".toList

def indentedOpenerError (body : Text) (offset : Nat) : Text :=
  "indented ```neige-block opener at byte ".toList ++ byteOffset body offset ++
    (": a neige-block fence must start at column 0 — remove the leading spaces (or wrap the " ++
      "snippet in a ~~~ fence if it is only an example)").toList

def trailingTextError (body : Text) (offset : Nat) : Text :=
  "```neige-block opener with trailing text at byte ".toList ++ byteOffset body offset ++
    (": the info string must be exactly `neige-block <kind>` — remove everything after " ++
      "the kind").toList

/-- A text without the whitespace at its end. -/
def trimEnd (text : Text) : Text := (text.reverse.dropWhile isWhitespace).reverse

/-- The typo of an opener outside any fence: indented, or with text after the kind. -/
def openerTypo (body : Text) (offset : Nat) (line : Text) : List Text :=
  let stripped := stripFenceIndent line
  if "```neige-block".toList.isPrefixOf stripped then
    if stripped.length ≠ line.length then [indentedOpenerError body offset]
    else match Text.stripStart neigeOpen line with
      | some rest =>
        if (trimEnd rest).any fun c => c = ' ' || c = '\t' then [trailingTextError body offset]
        else []
      | none => []
  else []

/-! ## The scan -/

/-- An open fence: its marker, how many close it, and where it starts if its opener is a
`neige-block` one. -/
structure OpenFence where
  marker : Char
  minimum : Nat
  neigeStart : Option Nat

structure ScanState where
  starts : List Nat
  invalidFences : List Text
  offset : Nat
  fence : Option OpenFence

section Scan

variable (N : Type) [JsonReader N]

/-- One line, with its ending. -/
def scanLine (body : Text) (state : ScanState) (lineWithEnding : Text) : ScanState :=
  let lineEnd := state.offset + lineWithEnding.length
  let line := lineContent lineWithEnding
  match state.fence with
  | some fence =>
    if closesFence fence.marker fence.minimum line then
      match fence.neigeStart with
      | some start =>
        if (parseFence (N := N) ((body.take lineEnd).drop start)).isSome then
          { state with
            starts := state.starts ++ [start, lineEnd]
            offset := lineEnd
            fence := none }
        else
          { state with
            invalidFences := state.invalidFences ++ [malformedFenceError body start]
            offset := lineEnd
            fence := none }
      | none => { state with offset := lineEnd, fence := none }
    else { state with offset := lineEnd }
  | none =>
    -- a `neige-block` opener is also an opener of a plain fence, so it comes first
    if (neigeOpenKind line).isSome then
      { state with offset := lineEnd, fence := some ⟨'\x60', 3, some state.offset⟩ }
    else match openingFence line with
      | some (marker, length) =>
        { state with
          invalidFences := state.invalidFences ++
            if marker = '\x60' then openerTypo body state.offset line else []
          offset := lineEnd
          fence := some ⟨marker, length, none⟩ }
      | none =>
        if isH1OrH2 line then
          { state with starts := state.starts ++ [state.offset], offset := lineEnd }
        else { state with offset := lineEnd }

def scanLines (body : Text) : ScanState :=
  (Text.lines body).foldl (scanLine N body) ⟨[], [], 0, none⟩

/-- Adjacent repetitions removed. -/
def dedup : List Nat → List Nat
  | a :: b :: rest => if a = b then dedup (b :: rest) else a :: dedup (b :: rest)
  | short => short

/-- The parts of a body between its cuts. -/
def slicesAt (body : Text) : List Nat → List Text
  | [] => []
  | [start] => [body.drop start]
  | start :: next :: rest => (body.take next).drop start :: slicesAt body (next :: rest)

/-- Where the slices of a nonempty body start. -/
def sliceStarts (body : Text) (starts : List Nat) : List Nat :=
  let starts := (dedup (starts.mergeSort)).filter (· < body.length)
  if starts.head? = some 0 then starts else 0 :: starts

/-- The slices of a body. -/
def splitBody (body : Text) : List Text :=
  if body = [] then [[]] else slicesAt body (sliceStarts body (scanLines N body).starts)

/-- What is wrong with the `neige-block` fences of a body. -/
def invalidNeigeFences (body : Text) : List Text :=
  let state := scanLines N body
  state.invalidFences ++
    match state.fence with
    | some ⟨_, _, some start⟩ => [unterminatedFenceError body start]
    | _ => []

end Scan

end NeigeCalm.Report
