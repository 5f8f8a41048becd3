import NeigeCalm.Report.Boundaries

/-!
# Marked reads and marked writes

A marked read puts a marker line with its id before the text of each block.  A marked
write strips every marker line, cuts the cleaned text where the scan cuts it and where a
marker stood, and hints the slice after a marker to the block the marker names.
-/

namespace NeigeCalm.Report

open Library List Text

variable {N : Type} [JsonReader N]

/-! ## Marker lines -/

def markerStart : Text := "<!-- neige:".toList
def markerEnd : Text := " -->".toList

def markerLine (id : Text) : Text := markerStart ++ id ++ markerEnd ++ ['\n']

def isBlankChar (c : Char) : Bool := c = ' ' || c = '\t'

/-- Without the spaces and tabs at both ends. -/
def trimBlanks (line : Text) : Text :=
  ((line.dropWhile isBlankChar).reverse.dropWhile isBlankChar).reverse

/-- What comes before `last` in a text that ends with it. -/
def stripEnd (last text : Text) : Option Text :=
  (Text.stripStart last.reverse text.reverse).map reverse

def isLowerHex (c : Char) : Bool := ('0' ≤ c && c ≤ '9') || ('a' ≤ c && c ≤ 'f')

/-- An id of the form `b_hhhh`. -/
def isMarkerId (id : Text) : Bool :=
  id.length = 6 && "b_".toList.isPrefixOf id && (id.drop 2).all isLowerHex

/-- The id of a standalone marker line. -/
def markerLineId (line : Text) : Option Text := do
  let rest ← Text.stripStart markerStart (trimBlanks (lineContent line))
  let id ← stripEnd markerEnd rest
  if isMarkerId id then some id else none

/-! ## Writes -/

structure MarkedBody where
  cleaned : Text
  slices : List Text
  hints : List (Option Text)

/-- One line of a marked body: the cleaned text so far, and where the markers stood. -/
def stripLine (state : Text × List (Nat × Text)) (line : Text) : Text × List (Nat × Text) :=
  match markerLineId line with
  | some id => (state.1, state.2 ++ [(state.1.length, id)])
  | none => (state.1 ++ line, state.2)

def stripMarkers (body : Text) : Text × List (Nat × Text) :=
  (Text.lines body).foldl stripLine ([], [])

/-- A marker binds the slice that starts where it stood; of several the last one does. -/
def bindMarker (starts : List Nat) (hints : List (Option Text)) (marker : Nat × Text) :
    List (Option Text) :=
  match starts.findIdx? (· = marker.1) with
  | some index => hints.set index (some marker.2)
  | none => hints

variable (N) in
/-- Where the slices of a cleaned text start. -/
def markedStarts (cleaned : Text) (markers : List (Nat × Text)) : List Nat :=
  dedup ((positions 0 (splitBody N cleaned) ++
    (markers.map Prod.fst).filter (· < cleaned.length)).mergeSort)

variable (N) in
def stripMarkersAndSplit (body : Text) : MarkedBody :=
  let (cleaned, markers) := stripMarkers body
  let starts := markedStarts N cleaned markers
  let slices := slicesAt cleaned starts
  { cleaned
    slices
    hints := markers.foldl (bindMarker starts) (replicate slices.length none) }

/-- The text holds no marker line. -/
def Unmarked (text : Text) : Prop := ∀ line ∈ Text.lines text, markerLineId line = none

instance (text : Text) : Decidable (Unmarked text) :=
  inferInstanceAs (Decidable (∀ line ∈ Text.lines text, markerLineId line = none))

/-! ## Where a marked read is cut -/

section Cuts

variable {texts : List Text}

theorem markedStarts_spec (cleaned : Text) (markers : List (Nat × Text)) :
    (markedStarts N cleaned markers).Pairwise (· < ·) ∧ ∀ x, x ∈ markedStarts N cleaned markers ↔
      x ∈ positions 0 (splitBody N cleaned) ∨ x ∈ markers.map Prod.fst ∧ x < cleaned.length := by
  refine ⟨sorted_dedup (by simpa using pairwise_mergeSort' (· ≤ ·) _), fun x => ?_⟩
  rw [markedStarts, mem_dedup, mem_mergeSort, mem_append, mem_filter, decide_eq_true_iff]

theorem length_positions (offset : Nat) (texts : List Text) :
    (positions offset texts).length = texts.length := by
  induction texts generalizing offset with
  | nil => rfl
  | cons _ _ ih => rw [positions, length_cons, ih, length_cons]

theorem zero_mem_positions (body : Text) : 0 ∈ positions 0 (splitBody N body) := by
  cases slices : splitBody N body with
  | nil =>
    have whole := flatten_splitBody N body
    rw [slices] at whole
    obtain rfl : [] = body := whole
    rw [splitBody, if_pos rfl] at slices
    cases slices
  | cons => exact mem_cons_self

theorem le_of_mem_cuts (inside : x ∈ positions 0 (splitBody N body)) : x ≤ body.length := by
  by_cases empty : body = []
  · rw [splitBody, if_pos empty] at inside
    rw [mem_singleton.mp inside]
    exact Nat.zero_le _
  · have less := lt_of_mem_positions (splitBody_filled empty) inside
    rw [flatten_splitBody] at less
    omega

end Cuts

end NeigeCalm.Report
