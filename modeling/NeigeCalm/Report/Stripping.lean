import NeigeCalm.Report.Markers

/-!
# What a marked write is cut into

Stripping leaves the lines that are no markers.  The cleaned text is cut by the scan and at the
markers, and a slice is hinted to the id of the marker line right above it (`MarkerAbove`).

`markers_exact_iff` says when all of this is so: for every body except one that has marker lines
only.  Its cleaned text is empty, and the empty text is still one slice, which starts where all
the markers stood: the last of them binds it although no text comes after it.
-/

namespace NeigeCalm.Report

open Library List

/-! ## Markers in a body -/

/-- The lines that are no markers. -/
def textLines (lines : List Text) : List Text := lines.filter fun line => markerLineId line = none

/-- A marker line stands where the cleaned text has come to `start`. -/
def MarkerStood (body : Text) (start : Nat) : Prop :=
  ∃ before marker after, Text.lines body = before ++ marker :: after ∧
    markerLineId marker ≠ none ∧ (textLines before).flatten.length = start

/-- The line right above the text that starts at `start` is a marker line with the id. -/
def MarkerAbove (body : Text) (start : Nat) (id : Text) : Prop :=
  ∃ before marker text after, Text.lines body = before ++ marker :: text :: after ∧
    markerLineId marker = some id ∧ markerLineId text = none ∧
    (textLines before).flatten.length = start

/-- A marked write, read exactly. -/
structure MarkersExact (N : Type) [JsonReader N] (body : Text) (marked : MarkedBody) : Prop where
  /-- Exactly the marker lines are removed. -/
  cleaned : marked.cleaned = (textLines (Text.lines body)).flatten
  unmarked : Unmarked marked.cleaned
  slices : marked.slices.flatten = marked.cleaned
  hints : marked.hints.length = marked.slices.length
  /-- Every slice starts at a cut of the scan or at a marker. -/
  starts : ∀ start ∈ positions 0 marked.slices,
    start ∈ positions 0 (splitBody N marked.cleaned) ∨ MarkerStood body start
  /-- A slice is hinted to the marker right above it. -/
  bound : ∀ (index start : Nat), (positions 0 marked.slices)[index]? = some start →
    ∀ id, marked.hints[index]? = some (some id) ↔ MarkerAbove body start id

/-! ## What stripping collects -/

/-- The markers of lines, each with where it stood. -/
def markersFrom : Nat → List Text → List (Nat × Text)
  | _, [] => []
  | offset, line :: rest =>
    match markerLineId line with
    | some id => (offset, id) :: markersFrom offset rest
    | none => markersFrom (offset + line.length) rest

section Stripping

theorem textLines_cons_text (isText : markerLineId line = none) :
    textLines (line :: lines) = line :: textLines lines :=
  filter_cons_of_pos (decide_eq_true isText)

theorem textLines_cons_marker {line id : Text} (isMarker : markerLineId line = some id) :
    textLines (line :: lines) = textLines lines :=
  filter_cons_of_neg (by simp [isMarker])

theorem foldl_stripLine :
    lines.foldl stripLine (cleaned, markers) =
      (cleaned ++ (textLines lines).flatten, markers ++ markersFrom cleaned.length lines) := by
  induction lines generalizing cleaned markers with
  | nil => simp [textLines, markersFrom]
  | cons line _ ih =>
    rw [foldl_cons, stripLine, markersFrom]
    cases found : markerLineId line with
    | some =>
      rw [ih, textLines_cons_marker found]
      simp
    | none =>
      rw [ih, textLines_cons_text found, length_append, flatten_cons, append_assoc]

theorem stripMarkers_eq (body : Text) :
    stripMarkers body =
      ((textLines (Text.lines body)).flatten, markersFrom 0 (Text.lines body)) := by
  rw [stripMarkers, foldl_stripLine]
  rfl

/-- Each marker is a marker line, and stands where the text before it ends. -/
theorem mem_markersFrom {marker : Nat × Text} (known : marker ∈ markersFrom offset lines) :
    ∃ before line after, lines = before ++ line :: after ∧ markerLineId line = some marker.2 ∧
      offset + (textLines before).flatten.length = marker.1 := by
  induction lines generalizing offset with
  | nil => cases known
  | cons line rest ih =>
    rw [markersFrom] at known
    cases found : markerLineId line with
    | some =>
      rw [found] at known
      rcases mem_cons.mp known with rfl | later
      · exact ⟨[], line, rest, rfl, found, rfl⟩
      · obtain ⟨before, other, after, rfl, isMarker, _⟩ := ih later
        refine ⟨line :: before, other, after, rfl, isMarker, ?_⟩
        rwa [textLines_cons_marker found]
    | none =>
      rw [found] at known
      obtain ⟨before, other, after, rfl, isMarker, _⟩ := ih known
      refine ⟨line :: before, other, after, rfl, isMarker, ?_⟩
      rw [textLines_cons_text found, flatten_cons, length_append]
      omega

/-! ## The last marker on a boundary -/

/-- The id of the last marker that stood at `start`. -/
def lastMarker (start : Nat) : List (Nat × Text) → Option Text
  | [] => none
  | marker :: rest =>
    (lastMarker start rest).or (if marker.1 = start then some marker.2 else none)

theorem mem_of_lastMarker {id : Text} (last : lastMarker start markers = some id) :
    (start, id) ∈ markers := by
  induction markers with
  | nil => cases last
  | cons _ _ ih =>
    rw [lastMarker, Option.or_eq_some_iff] at last
    rcases last with later | ⟨-, here⟩
    · exact mem_cons_of_mem _ (ih later)
    · split at here
      next same =>
        cases here
        rw [← same]
        exact mem_cons_self
      next => cases here

/-- No marker of later text stands before it. -/
theorem lastMarker_none_of_lt (early : start < offset) :
    lastMarker start (markersFrom offset lines) = none := by
  cases last : lastMarker start (markersFrom offset lines) with
  | none => rfl
  | some =>
    obtain ⟨_, _, _, -, -, place⟩ := mem_markersFrom (mem_of_lastMarker last)
    dsimp only at place
    omega

/-- **The last marker on a boundary with text after it is the line right above the text.** -/
theorem lastMarker_iff (filled : ∀ line ∈ lines, line ≠ [])
    (inside : start < offset + (textLines lines).flatten.length) (id : Text) :
    lastMarker start (markersFrom offset lines) = some id ↔
      ∃ before marker text after, lines = before ++ marker :: text :: after ∧
        markerLineId marker = some id ∧ markerLineId text = none ∧
        offset + (textLines before).flatten.length = start := by
  induction lines generalizing offset with
  | nil =>
    constructor
    · intro last
      cases last
    · rintro ⟨before, marker, text, after, whole, -⟩
      simp at whole
  | cons line rest ih =>
    obtain ⟨_, filled⟩ := forall_mem_cons.mp filled
    rw [markersFrom]
    cases found : markerLineId line with
    | none =>
      rw [textLines_cons_text found, flatten_cons, length_append] at inside
      rw [ih filled (by omega)]
      constructor
      · rintro ⟨before, marker, text, after, rfl, isMarker, isText, place⟩
        refine ⟨line :: before, marker, text, after, rfl, isMarker, isText, ?_⟩
        rw [textLines_cons_text found, flatten_cons, length_append]
        omega
      · rintro ⟨before, marker, text, after, whole, isMarker, isText, place⟩
        cases before with
        | nil =>
          cases whole
          cases found.symm.trans isMarker
        | cons _ before =>
          cases whole
          refine ⟨before, marker, text, after, rfl, isMarker, isText, ?_⟩
          rw [textLines_cons_text found, flatten_cons, length_append] at place
          omega
    | some other =>
      rw [textLines_cons_marker found] at inside
      rw [lastMarker, Option.or_eq_some_iff, ih filled inside]
      constructor
      · rintro (⟨before, marker, text, after, rfl, isMarker, isText, place⟩ | ⟨noLater, here⟩)
        · refine ⟨line :: before, marker, text, after, rfl, isMarker, isText, ?_⟩
          rwa [textLines_cons_marker found]
        · split at here
          next same =>
            cases here
            obtain ⟨text, after, rfl⟩ : ∃ text after, rest = text :: after := by
              refine exists_cons_of_ne_nil ?_
              rintro rfl
              simp [textLines] at inside
              omega
            -- a marker in its place would be a later one on the same boundary
            cases isText : markerLineId text with
            | none => exact ⟨[], line, text, after, rfl, found, isText, same⟩
            | some =>
              have place : offset = start := same
              rw [markersFrom, isText] at noLater
              dsimp only at noLater
              rw [lastMarker, if_pos place, Option.or_eq_none_iff] at noLater
              cases noLater.2
          next => cases here
      · rintro ⟨before, marker, text, after, whole, isMarker, isText, place⟩
        cases before with
        | nil =>
          cases whole
          rw [found] at isMarker
          refine .inr ⟨?_, ?_⟩
          · have longer := length_pos_of_ne_nil (filled text mem_cons_self)
            have below : start < offset + text.length := by
              rw [← place]
              simp [textLines]
              omega
            rw [markersFrom, isText]
            exact lastMarker_none_of_lt below
          · rwa [if_pos (show (offset, other).1 = start from place)]
        | cons _ before =>
          cases whole
          refine .inl ⟨before, marker, text, after, rfl, isMarker, isText, ?_⟩
          rwa [textLines_cons_marker found] at place

end Stripping

/-! ## Hints -/

section Hints

variable {index start : Nat}

theorem length_bindMarker :
    (bindMarker starts hints marker).length = hints.length := by
  unfold bindMarker
  split
  · exact length_set
  · rfl

theorem length_foldl_bindMarker (markers : List (Nat × Text)) :
    (markers.foldl (bindMarker starts) hints).length = hints.length := by
  induction markers generalizing hints with
  | nil => rfl
  | cons _ _ ih => rw [foldl_cons, ih, length_bindMarker]

/-- One marker binds the slice that starts where it stood, and no other. -/
theorem getElem?_bindMarker (sorted : starts.Pairwise (· < ·)) (here : starts[index]? = some start)
    (marker : Nat × Text) (hinted : hints[index]? = some hint) :
    (bindMarker starts hints marker)[index]? =
      some ((if marker.1 = start then some marker.2 else none).or hint) := by
  obtain ⟨_, atIndex⟩ := List.getElem?_eq_some_iff.mp here
  obtain ⟨inHints, -⟩ := List.getElem?_eq_some_iff.mp hinted
  unfold bindMarker
  split
  next place found =>
    obtain ⟨_, same, -⟩ := findIdx?_eq_some_iff_getElem.mp found
    have same : starts[place] = marker.1 := of_decide_eq_true same
    by_cases equal : place = index
    · subst equal
      rw [if_pos (same.symm.trans atIndex), getElem?_set_self inHints]
      rfl
    · have other : marker.1 ≠ start := by
        intro stood
        have nodup : starts.Nodup := sorted.imp fun less => less.ne
        exact equal ((List.Nodup.getElem_inj_iff nodup).mp (by rw [same, stood, atIndex]))
      rw [if_neg other, getElem?_set_ne equal, hinted]
      rfl
  next none =>
    have other : marker.1 ≠ start := by
      intro stood
      have absent := findIdx?_eq_none_iff.mp none start (mem_of_getElem? here)
      simp [stood] at absent
    rw [if_neg other, hinted]
    rfl

theorem getElem?_foldl_bindMarker (sorted : starts.Pairwise (· < ·))
    (here : starts[index]? = some start) (markers : List (Nat × Text))
    (hinted : hints[index]? = some hint) :
    (markers.foldl (bindMarker starts) hints)[index]? =
      some ((lastMarker start markers).or hint) := by
  induction markers generalizing hints hint with
  | nil => exact hinted
  | cons marker _ ih =>
    rw [foldl_cons, ih (getElem?_bindMarker sorted here marker hinted), lastMarker, Option.or_assoc]

end Hints

/-! ## Slices -/

theorem flatten_slicesAt (sorted : (start :: starts).Pairwise (· < ·))
    (bounded : ∀ cut ∈ starts, cut ≤ body.length) :
    (slicesAt body (start :: starts)).flatten = body.drop start := by
  induction starts generalizing start with
  | nil => simp [slicesAt]
  | cons next _ ih =>
    have less : start < next := rel_of_pairwise_cons sorted mem_cons_self
    obtain ⟨-, bounded⟩ := forall_mem_cons.mp bounded
    have rest : body.drop next = (body.drop start).drop (next - start) := by
      rw [drop_drop, Nat.add_sub_cancel' less.le]
    rw [slicesAt, flatten_cons, ih sorted.of_cons bounded, drop_take, rest, take_append_drop]

variable {N : Type} [JsonReader N]

/-- The cuts of a marked write start at the front and stay inside the text. -/
theorem markedStarts_cons (cleaned : Text) (markers : List (Nat × Text)) :
    ∃ starts, markedStarts N cleaned markers = 0 :: starts ∧
      (∀ cut ∈ 0 :: starts, cut ≤ cleaned.length) ∧
      (cleaned ≠ [] → ∀ cut ∈ 0 :: starts, cut < cleaned.length) := by
  obtain ⟨sorted, known⟩ := markedStarts_spec (N := N) cleaned markers
  have first := (known 0).mpr (.inl (zero_mem_positions cleaned))
  have bounded : ∀ cut ∈ markedStarts N cleaned markers, cut ≤ cleaned.length := by
    intro cut isCut
    rcases (known cut).mp isCut with scanned | ⟨-, inside⟩
    · exact le_of_mem_cuts scanned
    · exact inside.le
  have inner : cleaned ≠ [] → ∀ cut ∈ markedStarts N cleaned markers, cut < cleaned.length := by
    intro some cut isCut
    rcases (known cut).mp isCut with scanned | ⟨-, inside⟩
    · have less := lt_of_mem_positions (splitBody_filled some) scanned
      rwa [flatten_splitBody, Nat.zero_add] at less
    · exact inside
  cases starts : markedStarts N cleaned markers with
  | nil =>
    rw [starts] at first
    cases first
  | cons least rest =>
    rw [starts] at sorted first bounded inner
    obtain rfl : least = 0 := by
      rcases mem_cons.mp first with zero | later
      · exact zero.symm
      · exact absurd (rel_of_pairwise_cons sorted later) (Nat.not_lt_zero least)
    exact ⟨rest, rfl, bounded, inner⟩

/-- The parts that every marked write has, with its hints by the last marker of each boundary. -/
theorem stripMarkersAndSplit_parts (N : Type) [JsonReader N] (body : Text) :
    let marked := stripMarkersAndSplit N body
    let starts := markedStarts N marked.cleaned (markersFrom 0 (Text.lines body))
    marked.cleaned = (textLines (Text.lines body)).flatten ∧
      marked.slices.flatten = marked.cleaned ∧ marked.hints.length = marked.slices.length ∧
      positions 0 marked.slices = starts ∧
      ∀ index start : Nat, starts[index]? = some start →
        marked.hints[index]? = some (lastMarker start (markersFrom 0 (Text.lines body))) := by
  intro marked starts
  have stripped := stripMarkers_eq body
  have cleaned : marked.cleaned = (textLines (Text.lines body)).flatten := by
    simp only [marked, stripMarkersAndSplit, stripped]
  have sorted := (markedStarts_spec (N := N) marked.cleaned (markersFrom 0 (Text.lines body))).1
  obtain ⟨rest, cons, bounded, -⟩ :=
    markedStarts_cons (N := N) marked.cleaned (markersFrom 0 (Text.lines body))
  have isStarts : starts = 0 :: rest := cons
  have tail : ∀ cut ∈ rest, cut ≤ marked.cleaned.length := fun cut isCut =>
    bounded cut (mem_cons_of_mem _ isCut)
  rw [cons] at sorted
  have slices : marked.slices = slicesAt marked.cleaned (0 :: rest) := by
    rw [← isStarts]
    simp only [marked, starts, stripMarkersAndSplit, stripped]
  have places : positions 0 marked.slices = 0 :: rest := by
    rw [slices]
    exact positions_slicesAt sorted tail
  have count : (0 :: rest).length = marked.slices.length := by rw [← places, length_positions]
  have hints : marked.hints = (markersFrom 0 (Text.lines body)).foldl (bindMarker (0 :: rest))
      (List.replicate marked.slices.length none) := by
    rw [← isStarts]
    simp only [marked, starts, stripMarkersAndSplit, stripped]
  refine ⟨cleaned, ?_, ?_, places.trans isStarts.symm, fun index start here => ?_⟩
  · rw [slices, flatten_slicesAt sorted tail]
    rfl
  · rw [hints, length_foldl_bindMarker, length_replicate]
  · rw [isStarts] at here
    obtain ⟨inside, -⟩ := List.getElem?_eq_some_iff.mp here
    have unhinted : (List.replicate marked.slices.length (none : Option Text))[index]? =
      some none :=
      getElem?_replicate_of_lt (count ▸ inside)
    rw [hints, getElem?_foldl_bindMarker sorted here _ unhinted, Option.or_none]

section OnlyMarkers

/-- A body of marker lines only binds its empty slice to the last of them. -/
theorem bound_of_only_markers (some : body ≠ [])
    (only : ∀ line ∈ Text.lines body, markerLineId line ≠ none) :
    ∃ id, lastMarker 0 (markersFrom 0 (Text.lines body)) = Option.some id ∧
      (positions 0 (stripMarkersAndSplit N body).slices)[0]? = Option.some 0 ∧
      (stripMarkersAndSplit N body).hints[0]? = Option.some (Option.some id) := by
  obtain ⟨-, -, -, places, bound⟩ := stripMarkersAndSplit_parts N body
  obtain ⟨rest, cons, -⟩ := markedStarts_cons (N := N) (stripMarkersAndSplit N body).cleaned
    (markersFrom 0 (Text.lines body))
  have first : (markedStarts N (stripMarkersAndSplit N body).cleaned
      (markersFrom 0 (Text.lines body)))[0]? = Option.some 0 := by rw [cons]; rfl
  have hinted := bound 0 0 first
  have last : ∃ id, lastMarker 0 (markersFrom 0 (Text.lines body)) = Option.some id := by
    cases shape : Text.lines body with
    | nil =>
      have whole := Text.lines_flatten body
      rw [shape] at whole
      exact absurd whole.symm some
    | cons line rest =>
      obtain ⟨id, isMarker⟩ := Option.ne_none_iff_exists'.mp (only line (shape ▸ mem_cons_self))
      rw [markersFrom, isMarker]
      rw [lastMarker, if_pos rfl]
      cases lastMarker 0 (markersFrom 0 rest) with
      | none => exact ⟨id, rfl⟩
      | some later => exact ⟨later, rfl⟩
  obtain ⟨id, isLast⟩ := last
  rw [isLast] at hinted
  exact ⟨id, isLast, by rw [places, first], hinted⟩

/-- That slice has no text which a marker could stand above. -/
theorem not_exact_of_only_markers (some : body ≠ [])
    (only : ∀ line ∈ Text.lines body, markerLineId line ≠ none) :
    ¬ MarkersExact N body (stripMarkersAndSplit N body) := by
  intro exact_
  obtain ⟨id, -, first, hinted⟩ := bound_of_only_markers (N := N) some only
  obtain ⟨_, _, text, _, whole, -, isText, -⟩ := (exact_.bound 0 0 first id).mp hinted
  exact only text (by rw [whole]; simp) isText

end OnlyMarkers

/-- **A marked write is read exactly unless it has marker lines only.** -/
theorem markers_exact_iff (N : Type) [JsonReader N] (body : Text) :
    MarkersExact N body (stripMarkersAndSplit N body) ↔
      body = [] ∨ ∃ line ∈ Text.lines body, markerLineId line = none := by
  obtain ⟨cleaned, slices, hints, places, bound⟩ := stripMarkersAndSplit_parts N body
  have lined := Text.lined_lines body
  constructor
  · intro exact_
    by_contra neither
    obtain ⟨some, noText⟩ := not_or.mp neither
    exact not_exact_of_only_markers some (fun line inside isText => noText ⟨line, inside, isText⟩)
      exact_
  · intro condition
    refine ⟨cleaned, ?_, slices, hints, ?_, ?_⟩
    · intro line inside
      have kept : Text.Lined (textLines (Text.lines body) ++ []) := by
        rw [append_nil]
        exact lined.filter _
      rw [cleaned, kept.lines_flatten] at inside
      exact of_decide_eq_true (mem_filter.mp inside).2
    · intro start isStart
      rw [places, (markedStarts_spec _ _).2] at isStart
      refine isStart.imp_right fun ⟨stood, _⟩ => ?_
      obtain ⟨_, known, rfl⟩ := mem_map.mp stood
      obtain ⟨before, line, after, whole, isMarker, _⟩ := mem_markersFrom known
      exact ⟨before, line, after, whole, by simp [isMarker], by omega⟩
    · intro index start here id
      rw [places] at here
      rw [bound index start here, Option.some.injEq]
      rcases condition with rfl | ⟨line, inside, isText⟩
      · constructor
        · intro last
          cases last
        · rintro ⟨_, _, text, _, whole, -⟩
          simp [Text.lines] at whole
      · obtain ⟨_, cons, -, inner⟩ := markedStarts_cons (N := N)
          (stripMarkersAndSplit N body).cleaned (markersFrom 0 (Text.lines body))
        have text : (stripMarkersAndSplit N body).cleaned ≠ [] := by
          rw [cleaned]
          intro empty
          have kept : line ∈ textLines (Text.lines body) :=
            mem_filter.mpr ⟨inside, decide_eq_true isText⟩
          exact lined.ne_nil inside (flatten_eq_nil_iff.mp empty line kept)
        have less := inner text start (cons ▸ mem_of_getElem? here)
        rw [cleaned] at less
        have filled : ∀ line ∈ Text.lines body, line ≠ [] := fun _ known => lined.ne_nil known
        rw [lastMarker_iff filled (by omega)]
        simp only [MarkerAbove, Nat.zero_add]

/-- A body that is one marker line: its id is bound, with no text after it. -/
theorem marker_alone_binds :
    (stripMarkersAndSplit NumberToken (markerLine "b_00aa".toList)).hints[0]? =
        some (some "b_00aa".toList) ∧
      ¬ MarkersExact NumberToken (markerLine "b_00aa".toList)
        (stripMarkersAndSplit NumberToken (markerLine "b_00aa".toList)) := by
  have filled : markerLine "b_00aa".toList ≠ [] := by decide
  have only : ∀ line ∈ Text.lines (markerLine "b_00aa".toList),
      markerLineId line ≠ none := by decide
  refine ⟨?_, not_exact_of_only_markers filled only⟩
  obtain ⟨_, last, -, hinted⟩ := bound_of_only_markers (N := NumberToken) filled only
  have isId : lastMarker 0 (markersFrom 0 (Text.lines (markerLine "b_00aa".toList))) =
      some "b_00aa".toList := by decide
  rw [isId] at last
  rw [hinted, ← last]

end NeigeCalm.Report
