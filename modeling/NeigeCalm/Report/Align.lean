import Mathlib.Data.Finset.Card
import Mathlib.Algebra.Order.Field.Basic
import Mathlib.Algebra.Order.Field.Rat
import NeigeCalm.Library.Edits
import NeigeCalm.Library.Matching
import NeigeCalm.Report.Fence

/-!
# Block identity across rewrites

A rewrite gives new slices of text; each slice that continues an old block keeps its
id.  Hints bind first, then the matches of a longest common subsequence of the texts,
then, within each gap between them, the only pair of a data kind and the most similar
texts.  A slice that continues nothing gets a fresh id.

`reassign_aligned` says what the result is, whatever was matched: one block for each
slice with its content, distinct ids, and the revision of a continued block raised
exactly when its text changed.
-/

namespace NeigeCalm.Report

open Library List Nat Slots

variable {N : Type} [JsonReader N]

/-! ## Fresh ids -/

def hexId (n : Nat) : Text :=
  ['b', '_', hexDigit (n / 4096 % 16), hexDigit (n / 256 % 16), hexDigit (n / 16 % 16),
    hexDigit (n % 16)]

/-- The eight bytes of an index, the lowest first. -/
def leBytes (index : Nat) : List UInt8 :=
  (range 8).map fun place => UInt8.ofNat (index / 256 ^ place)

def mintHash (raw : Text) (index : Nat) : UInt32 :=
  (raw.flatMap String.utf8EncodeChar ++ leBytes index).foldl
    (fun hash byte => (hash ^^^ byte.toUInt32) * 0x01000193) 0x811c9dc5

/-- The first of `left` ids from `start` on, counted round, that is not used. -/
def probe (used : List Text) (start : Nat) : Nat → Nat → Option Text
  | 0, _ => none
  | left + 1, candidate =>
    let id := hexId ((start + candidate) % 65536)
    if id ∈ used then probe used start left (candidate + 1) else some id

/-- A fresh id for a text at an index.  `none` is the `unreachable!` of a report that uses
all ids. -/
def mintId (raw : Text) (index : Nat) (used : List Text) : Option Text :=
  probe used ((mintHash raw index).toNat % 65536) 65536 0

/-! ## Similarity -/

/-- One row of the table of edit distances, from the row before it: `diagonal` is the entry
before those of `previous`, `left` the entry just written. -/
def levenshteinRow (c : Char) : Text → Nat → List Nat → Nat → List Nat
  | d :: others, diagonal, above :: previous, left =>
    let cell := if c = d then diagonal else 1 + min (min diagonal above) left
    cell :: levenshteinRow c others above previous cell
  | _, _, _, _ => []

/-- The row after the first `index` characters, carried to the end of the text. -/
def levenshteinRows (right : Text) : Text → Nat → List Nat → List Nat
  | [], _, previous => previous
  | c :: others, index, previous =>
    let row := levenshteinRow c right (previous.headD 0) previous.tail (index + 1)
    levenshteinRows right others (index + 1) ((index + 1) :: row)

def levenshtein (left right : Text) : Nat :=
  (levenshteinRows right left 0 (range (right.length + 1))).getLastD 0

/-- The source computes this in `f64`, where quotients of lengths below `2 ^ 26` are ordered
as the numbers are. -/
def similarity (left right : Text) : ℚ :=
  let maximum := max left.length right.length
  if maximum = 0 then 1 else 1 - (levenshtein left right : ℚ) / maximum

/-- A row as the source has it: the distances of the texts that `seen`, backwards, grows to. -/
def distances (left seen : Text) : Text → List Nat
  | [] => []
  | d :: others => editDistance left (d :: seen) :: distances left (d :: seen) others

theorem levenshteinRow_eq (c : Char) (left seen others : Text) :
    levenshteinRow c others (editDistance left seen) (distances left seen others)
      (editDistance (c :: left) seen) = distances (c :: left) seen others := by
  induction others generalizing seen with
  | nil => rfl
  | cons d _ ih =>
    have cell : (if c = d then editDistance left seen
        else 1 + min (min (editDistance left seen) (editDistance left (d :: seen)))
          (editDistance (c :: left) seen)) = editDistance (c :: left) (d :: seen) := by
      split
      next same => rw [← same, editDistance_cons_same]
      next different =>
        rw [editDistance, if_neg different]
        omega
    rw [distances, distances, levenshteinRow, cell, ih]

theorem levenshteinRows_eq (right left seen : Text) :
    levenshteinRows right left seen.length (seen.length :: distances seen [] right) =
      (left.reverse ++ seen).length :: distances (left.reverse ++ seen) [] right := by
  induction left generalizing seen with
  | nil => rfl
  | cons c _ ih =>
    have row := levenshteinRow_eq c seen [] right
    rw [editDistance_nil, editDistance_nil, length_cons] at row
    rw [levenshteinRows, headD_cons, tail_cons, row, reverse_cons, append_assoc]
    exact ih (c :: seen)

theorem getLastD_distances (left seen others : Text) :
    (editDistance left seen :: distances left seen others).getLastD 0 =
      editDistance left (others.reverse ++ seen) := by
  induction others generalizing seen with
  | nil => rfl
  | cons d _ ih =>
    rw [reverse_cons, append_assoc]
    exact ih (d :: seen)

theorem distances_nil (seen others : Text) :
    seen.length :: distances [] seen others = range' seen.length (others.length + 1) := by
  induction others generalizing seen with
  | nil => rfl
  | cons d _ ih =>
    rw [distances, nil_editDistance, length_cons, range'_succ]
    exact congrArg _ (ih (d :: seen))

theorem levenshtein_eq (left right : Text) :
    levenshtein left right = editDistance left.reverse right.reverse := by
  have rows := levenshteinRows_eq right left []
  rw [append_nil, distances_nil] at rows
  have last := getLastD_distances left.reverse [] right
  rw [editDistance_nil, append_nil] at last
  rw [levenshtein, range_eq_range', ← last, ← rows, length_nil]

/-- **The two-row routine counts the least number of insertions, deletions and substitutions**
that turn one text into the other, and similarity is the symmetric measure made of it. -/
theorem levenshtein_least_edits (left right : Text) :
    IsLeast {n | Edits n left right} (levenshtein left right) ∧
      similarity left right = similarity right left ∧
      (0 ≤ similarity left right ∧ similarity left right ≤ 1) ∧
      (similarity left right = 1 ↔ left = right) := by
  have atMost := editDistance_le_max left.reverse right.reverse
  have zero : levenshtein left right = 0 ↔ left = right := by
    rw [levenshtein_eq, editDistance_eq_zero, reverse_inj]
  rw [← levenshtein_eq, length_reverse, length_reverse] at atMost
  refine ⟨⟨?_, fun n edits => ?_⟩, ?_, ?_⟩
  · have edits := (edits_editDistance left.reverse right.reverse).reverse
    rwa [reverse_reverse, reverse_reverse, ← levenshtein_eq] at edits
  · rw [levenshtein_eq]
    exact (isLeast_editDistance _ _).2 edits.reverse
  · rw [similarity, similarity, levenshtein_eq, levenshtein_eq, editDistance_comm, Nat.max_comm]
  · dsimp only [similarity]
    split
    next empty =>
      obtain ⟨noLeft, noRight⟩ := Nat.max_eq_zero_iff.mp empty
      simp [length_eq_zero_iff.mp noLeft, length_eq_zero_iff.mp noRight]
    next nonempty =>
      have positive : (0 : ℚ) < (max left.length right.length : Nat) :=
        Nat.cast_pos.mpr (Nat.pos_of_ne_zero nonempty)
      have share := div_le_one_of_le₀ (Nat.cast_le.mpr atMost) positive.le
      refine ⟨⟨sub_nonneg.mpr share, sub_le_self _ (div_nonneg (Nat.cast_nonneg _) positive.le)⟩,
        ?_⟩
      rw [sub_eq_self, div_eq_zero_iff, or_iff_left positive.ne', Nat.cast_eq_zero, zero]

example : levenshtein "kitten".toList "sitting".toList = 3 := by decide

theorem levenshtein_triangle (a b c : Text) :
    levenshtein a c ≤ levenshtein a b + levenshtein b c := by
  have near {n l m} (path : Edits n l m) :
      editDistance l c.reverse ≤ n + editDistance m c.reverse := by
    induction path with
    | done => omega
    | step edit _ ih => exact (edit.distance_le _).trans (by omega)
  simpa only [levenshtein_eq] using near (edits_editDistance _ _)

def absDiff (a b : Nat) : Nat := (a - b) + (b - a)

/-- The order of the candidates: the more similar first, then the less moved. -/
def closer (left right : ℚ × Nat × Nat) : Bool :=
  right.1 < left.1 ||
    (left.1 = right.1 && absDiff left.2.1 left.2.2 ≤ absDiff right.2.1 right.2.2)

/-- Pairs of positions in one gap whose texts are similar enough, with their score. -/
def similarPairs (old new : List (Option Text)) : List (ℚ × Nat × Nat) :=
  old.zipIdx.flatMap fun (oldText, oldIndex) =>
    match oldText with
    | none => []
    | some oldText => new.zipIdx.filterMap fun (newText, newIndex) =>
      match newText with
      | none => none
      | some newText =>
        let score := similarity oldText newText
        if 1 / 2 ≤ score then some (score, oldIndex, newIndex) else none

/-- The best pairs of one gap, each position once, counted from the start of the lists. -/
def bestPairs (old new : List (Option Text)) (oldOffset newOffset : Nat) : List (Nat × Nat) :=
  let scores := (similarPairs old new).mergeSort closer
  (greedy (scores.map Prod.snd) [] []).map fun pair => (oldOffset + pair.1, newOffset + pair.2)

def similarityMatches (old new : List (Option Text)) (oldOffset newOffset : Nat) (slots : Slots) :
    Slots :=
  slots.assignAll (bestPairs old new oldOffset newOffset)

/-! ## The passes -/

/-- **The anchors of a rewrite are a longest common subsequence** of the texts still open. -/
theorem lcsMatches_longest (old new : List (Option Text)) :
    Common old new (lcsMatches old new) ∧
      ∀ pairs, Common old new pairs → pairs.length ≤ (lcsMatches old new).length :=
  ⟨common_lcsMatches old new, fun _ common => common.length_le_lcsMatches⟩

/-- The text of a slice as it will be stored: a well-formed fence in its canonical form. -/
def canonical (slice : Text) : Text :=
  match (parseFence (N := N) slice) with
  | some fence => renderFence fence.kind fence.payload
  | none => slice

/-- The text an old block is compared by; malformed prose has none. -/
def comparableFlat (block : ReportBlock N) : Option Text :=
  if block.kind = kindProse then markdownOf block.payload else some (flatText block)

/-- The position of the first block with the id. -/
def indexById (old : List (ReportBlock N)) (id : Text) : Option Nat :=
  old.findIdx? fun block => block.id = id

/-- Only the first block with an id can be continued. -/
def reusable (old : List (ReportBlock N)) (index : Nat) : Bool :=
  match old[index]? with
  | some block => indexById old block.id = some index
  | none => false

/-- Hints bind a slice to the block they name, once for each block. -/
def bindHint (old : List (ReportBlock N)) (bound : Slots × List Nat) (hint : Option Text × Nat) :
    Slots × List Nat :=
  match hint.1.bind (indexById old) with
  | some oldIndex =>
    if oldIndex ∈ bound.2 then bound
    else (bound.1.assign (oldIndex, hint.2), oldIndex :: bound.2)
  | none => bound

def bindHints (old : List (ReportBlock N)) (slices : List Text) (hints : List (Option Text)) :
    Slots × List Nat :=
  (hints.zipIdx.take slices.length).foldl (bindHint old) (replicate slices.length none, [])

/-- What is still to be matched, and the slots so far. -/
structure Pass where
  slots : Slots
  oldText : List (Option Text)
  newText : List (Option Text)

/-- The one old data block and the one new fence of each kind in a gap.  The source collects
them by kind in a map; different kinds concern different positions. -/
def kindPairs (old : List (ReportBlock N)) (slices : List Text) (pass : Pass)
    (oldStart oldEnd newStart newEnd : Nat) : List (Nat × Nat) :=
  let oldKind index := (old[index]?).bind fun block =>
    if (pass.oldText.getD index none).isSome && block.kind ≠ kindProse then some block.kind
    else none
  let newKind index := (slices[index]?).bind fun slice =>
    if (pass.newText.getD index none).isSome then
      (parseFence (N := N) slice).map NonProseFence.kind
    else none
  let olds := range' oldStart (oldEnd - oldStart)
  let news := range' newStart (newEnd - newStart)
  olds.filterMap fun oldIndex =>
    match oldKind oldIndex with
    | none => none
    | some kind =>
      match olds.filter (oldKind · = some kind), news.filter (newKind · = some kind) with
      | [_], [newIndex] => some (oldIndex, newIndex)
      | _, _ => none

def sameKindPairs (old : List (ReportBlock N)) (slices : List Text) (pass : Pass)
    (oldStart oldEnd newStart newEnd : Nat) : Pass :=
  let pairs := kindPairs old slices pass oldStart oldEnd newStart newEnd
  { slots := pass.slots.assignAll pairs
    oldText := pairs.foldl (fun texts pair => texts.set pair.1 none) pass.oldText
    newText := pairs.foldl (fun texts pair => texts.set pair.2 none) pass.newText }

/-- The gap before an anchor. -/
def fillGap (old : List (ReportBlock N)) (slices : List Text) (pass : Pass)
    (oldStart newStart : Nat) (anchor : Nat × Nat) : Pass :=
  let pass := sameKindPairs old slices pass oldStart anchor.1 newStart anchor.2
  let gap texts start length := take length (drop start texts)
  { pass with
    slots := similarityMatches (gap pass.oldText oldStart (anchor.1 - oldStart))
      (gap pass.newText newStart (anchor.2 - newStart)) oldStart newStart pass.slots }

/-- All gaps, the last one before the end of both lists. -/
def fillGaps (old : List (ReportBlock N)) (slices : List Text) :
    Pass → Nat → Nat → List (Nat × Nat) → Pass
  | pass, _, _, [] => pass
  | pass, oldStart, newStart, anchor :: rest =>
    fillGaps old slices (fillGap old slices pass oldStart newStart anchor) (anchor.1 + 1)
      (anchor.2 + 1) rest

/-- The texts of the old blocks that hints left. -/
def oldTexts (old : List (ReportBlock N)) (taken : List Nat) : List (Option Text) :=
  old.zipIdx.map fun (block, index) =>
    if reusable old index && index ∉ taken then comparableFlat block else none

/-- The texts of the slices that hints left. -/
def newTexts (N : Type) [JsonReader N] (slots : Slots) (slices : List Text) : List (Option Text) :=
  slices.zipIdx.map fun (slice, index) =>
    if slots.getD index none = none then some (canonical (N := N) slice) else none

/-- For each slice, the old block it continues. -/
def assignments (old : List (ReportBlock N)) (slices : List Text) (hints : List (Option Text)) :
    Slots :=
  let (slots, taken) := bindHints old slices hints
  let oldText := oldTexts old taken
  let newText := newTexts N slots slices
  let anchors := lcsMatches oldText newText
  let pass := { slots := slots.assignAll anchors, oldText, newText }
  (fillGaps old slices pass 0 0 (anchors ++ [(old.length, slices.length)])).slots

/-! ## The new blocks -/

/-- `saturating_add(1)`. -/
def nextRev (rev : UInt32) : UInt32 := if rev = 0xFFFFFFFF then rev else rev + 1

/-- The revision of an old block continued by a slice. -/
def continuedRev (old : ReportBlock N) (slice : Text) : UInt32 :=
  if comparableFlat old = some (canonical (N := N) slice) then old.rev else nextRev old.rev

/-- The block a slice holds. -/
def blockOf (slice id : Text) (rev : UInt32) : ReportBlock N :=
  match parseFence slice with
  | some fence => { id, kind := fence.kind, rev, payload := fence.payload }
  | none => { id, kind := kindProse, rev, payload := prosePayload slice }

/-- The blocks of the slices from `index` on. -/
def newBlocks (old : List (ReportBlock N)) (slots : Slots) :
    Nat → List Text → List Text → Option (List (ReportBlock N))
  | _, [], _ => some []
  | index, slice :: rest, used =>
    match slots.getD index none with
    | some oldIndex => do
      let block ← old[oldIndex]?
      let others ← newBlocks old slots (index + 1) rest used
      return blockOf slice block.id (continuedRev block slice) :: others
    | none => do
      let id ← mintId slice index used
      let others ← newBlocks old slots (index + 1) rest (id :: used)
      return blockOf slice id 1 :: others

/-- Ids are reused through hints, common subsequence and similarity; a minted id misses the
old ones and the reserved ones. -/
def reassignIdsWithHintsReserving (old : List (ReportBlock N)) (slices : List Text)
    (hints : List (Option Text)) (reserved : List Text) : Option (List (ReportBlock N)) :=
  newBlocks old (assignments old slices hints) 0 slices (old.map ReportBlock.id ++ reserved)

def reassignIdsWithHints (old : List (ReportBlock N)) (slices : List Text)
    (hints : List (Option Text)) : Option (List (ReportBlock N)) :=
  reassignIdsWithHintsReserving old slices hints []

def reassignIds (old : List (ReportBlock N)) (slices : List Text) : Option (List (ReportBlock N)) :=
  reassignIdsWithHints old slices []

/-! ## Every pass keeps the assignment one-to-one -/

section

omit [JsonReader N]

variable {old blocks : List (ReportBlock N)}

theorem reusable_of_indexById {id : Text} (found : indexById old id = some index) :
    reusable old index = true := by
  obtain ⟨inside, same, -⟩ := findIdx?_eq_some_iff_getElem.mp found
  have here : old[index].id = id := of_decide_eq_true same
  simp only [reusable, getElem?_eq_getElem inside, here]
  exact decide_eq_true found

/-- What hints leave: each block bound once, and recorded. -/
structure Bound (old : List (ReportBlock N)) (bound : Slots × List Nat) : Prop where
  once : bound.1.OneToOne
  recorded : ∀ {index}, bound.1.Holds index → index ∈ bound.2
  reusable : ∀ {index}, bound.1.Holds index → reusable old index = true

theorem Bound.bindHint {bound : Slots × List Nat} (inv : Bound old bound)
    (hint : Option Text × Nat) : Bound old (bindHint old bound hint) := by
  unfold Report.bindHint
  split
  next found =>
    split
    · exact inv
    next fresh =>
      obtain ⟨_, -, found⟩ := Option.bind_eq_some_iff.mp found
      refine ⟨inv.once.assign fun held => fresh (inv.recorded held), fun held => ?_, fun held => ?_⟩
      · rcases holds_assign held with before | rfl
        · exact mem_cons_of_mem _ (inv.recorded before)
        · exact mem_cons_self
      · rcases holds_assign held with before | rfl
        · exact inv.reusable before
        · exact reusable_of_indexById found
  · exact inv

theorem bindHints_bound (old : List (ReportBlock N)) (slices : List Text)
    (hints : List (Option Text)) : Bound old (bindHints old slices hints) := by
  have start : Bound old (replicate slices.length none, []) :=
    ⟨oneToOne_replicate _, fun held => absurd held (not_holds_replicate _ _),
      fun held => absurd held (not_holds_replicate _ _)⟩
  unfold bindHints
  generalize (hints.zipIdx.take slices.length) = hints at *
  generalize (replicate slices.length none, []) = bound at *
  induction hints generalizing bound with
  | nil => exact start
  | cons hint _ ih => exact ih _ (start.bindHint hint)

/-- A reusable position is the only one with its id. -/
theorem eq_of_reusable (atI : old[i]? = some first) (atJ : old[j]? = some second)
    (one : reusable old i = true) (other : reusable old j = true) (same : first.id = second.id) :
    i = j := by
  simp only [reusable, atI, decide_eq_true_eq] at one
  simp only [reusable, atJ, decide_eq_true_eq] at other
  rw [same, other] at one
  exact (Option.some.inj one).symm

theorem reusable_of_nodup (distinct : (blocks.map ReportBlock.id).Nodup)
    (inside : index < blocks.length) : reusable blocks index = true := by
  rw [reusable, getElem?_eq_getElem inside]
  refine decide_eq_true (findIdx?_eq_some_iff_getElem.mpr ⟨inside, decide_eq_true rfl, ?_⟩)
  intro earlier before
  have same := pairwise_iff_getElem.mp distinct earlier index (by simp; omega)
    (by simpa using inside) before
  simpa using same

theorem bindHints_unhinted (unhinted : ∀ hint ∈ hints, hint = none) (slices : List Text) :
    bindHints blocks slices hints = (replicate slices.length none, []) := by
  have still : ∀ (pairs : List (Option Text × Nat)), (∀ pair ∈ pairs, pair.1 = none) →
      ∀ bound, pairs.foldl (bindHint blocks) bound = bound := by
    intro pairs empty
    induction pairs with
    | nil => exact fun _ => rfl
    | cons pair _ ih =>
      intro bound
      have first : bindHint blocks bound pair = bound := by
        rw [bindHint, empty pair mem_cons_self]
        rfl
      rw [foldl_cons, first]
      exact ih (fun other inside => empty other (mem_cons_of_mem _ inside)) bound
  refine still _ (fun pair inside => ?_) _
  exact unhinted _ (fst_mem_of_mem_zipIdx (mem_of_mem_take inside))

end

section Passes

variable {old : List (ReportBlock N)} {pass : Pass} {pair : Nat × Nat}
  {oldStart oldEnd newStart newEnd : Nat} {anchor : Nat × Nat} {anchors : List (Nat × Nat)}

/-- The old block at `index` is still to be matched. -/
def Pass.Open (pass : Pass) (index : Nat) : Prop := (pass.oldText.getD index none).isSome = true

/-- Between two gaps: what is open from `start` on, but for the anchors, is free. -/
structure Filling (old : List (ReportBlock N)) (start : Nat) (anchors : List (Nat × Nat))
    (pass : Pass) : Prop where
  once : pass.slots.OneToOne
  held : ∀ {index}, pass.slots.Holds index → reusable old index = true
  eligible : ∀ {index}, pass.Open index → reusable old index = true
  free : ∀ {index}, start ≤ index → pass.Open index → index ∉ anchors.map Prod.fst →
    ¬ pass.slots.Holds index

theorem filterMap_fst_sublist {f : Nat → Option (Nat × Nat)}
    (same : ∀ i pair, f i = some pair → pair.1 = i) (indices : List Nat) :
    ((indices.filterMap f).map Prod.fst).Sublist indices := by
  induction indices with
  | nil => exact List.Sublist.slnil
  | cons i _ ih =>
    cases found : f i with
    | none => rw [filterMap_cons_none found]; exact ih.cons i
    | some pair =>
      rw [filterMap_cons_some found, map_cons, same i pair found]
      exact ih.cons_cons i

theorem kindPairs_nodup :
    ((kindPairs old slices pass oldStart oldEnd newStart newEnd).map Prod.fst).Nodup := by
  refine (filterMap_fst_sublist (fun i pair found => ?_) _).nodup nodup_range'
  split at found
  · cases found
  · split at found
    · exact congrArg Prod.fst (Option.some.inj found).symm
    · cases found

theorem mem_kindPairs (inside : pair ∈ kindPairs old slices pass oldStart oldEnd newStart newEnd) :
    (oldStart ≤ pair.1 ∧ pair.1 < oldEnd) ∧ pass.Open pair.1 ∧
      (pass.newText.getD pair.2 none).isSome = true := by
  obtain ⟨_, inGap, found⟩ := mem_filterMap.mp inside
  have range := mem_range'_1.mp inGap
  split at found
  · cases found
  next ofKind =>
    split at found
    next newIndex _ only =>
      cases found
      have chosen : newIndex ∈ [newIndex] := mem_singleton_self newIndex
      rw [← only, mem_filter, decide_eq_true_iff] at chosen
      obtain ⟨_, -, ofKind⟩ := Option.bind_eq_some_iff.mp ofKind
      obtain ⟨_, -, newKind⟩ := Option.bind_eq_some_iff.mp chosen.2
      split at ofKind
      next opened =>
        split at newKind
        next eligible =>
          exact ⟨⟨range.1, by omega⟩, (Bool.and_eq_true_iff.mp opened).1, eligible⟩
        next => cases newKind
      next => cases ofKind
    · cases found

theorem open_after_set {pairs : List (Nat × Nat)} {texts : List (Option Text)}
    (stays : ((pairs.foldl (fun texts pair => texts.set pair.1 none) texts).getD index none).isSome
      = true) : (texts.getD index none).isSome = true ∧ index ∉ pairs.map Prod.fst := by
  induction pairs generalizing texts with
  | nil => exact ⟨stays, not_mem_nil⟩
  | cons _ _ ih =>
    obtain ⟨before, notLater⟩ := ih stays
    rw [getD_eq_getElem?_getD, getElem?_set] at before
    split at before
    · split at before <;> cases before
    next other =>
      refine ⟨by rwa [getD_eq_getElem?_getD], ?_⟩
      rw [map_cons, mem_cons, not_or]
      exact ⟨Ne.symm other, notLater⟩

/-- Anchors come in order, each at `start` or later. -/
def Ahead (start : Nat) (anchors : List (Nat × Nat)) : Prop :=
  (∀ anchor ∈ anchors, start ≤ anchor.1) ∧ anchors.Pairwise fun a b => a.1 < b.1

theorem Ahead.not_mem (ahead : Ahead start (anchor :: anchors)) (before : index < anchor.1) :
    index ∉ (anchor :: anchors).map Prod.fst := by
  intro inside
  obtain ⟨_, inAnchors, rfl⟩ := mem_map.mp inside
  rcases mem_cons.mp inAnchors with rfl | later
  · omega
  · have := rel_of_pairwise_cons ahead.2 later
    omega

theorem Filling.sameKindPairs (inv : Filling old oldStart (anchor :: anchors) pass)
    (ahead : Ahead oldStart (anchor :: anchors)) (slices : List Text) (newStart : Nat) :
    Filling old oldStart (anchor :: anchors)
      (sameKindPairs old slices pass oldStart anchor.1 newStart anchor.2) := by
  have free : ∀ pair ∈ kindPairs old slices pass oldStart anchor.1 newStart anchor.2,
      ¬ pass.slots.Holds pair.1 := fun pair inside =>
    have ⟨⟨above, below⟩, opened, _⟩ := mem_kindPairs inside
    inv.free above opened (ahead.not_mem below)
  refine ⟨inv.once.assignAll kindPairs_nodup free, fun held => ?_, fun opened => ?_,
    fun above opened notAnchor held => ?_⟩
  · rcases holds_assignAll held with before | paired
    · exact inv.held before
    · obtain ⟨_, inside, rfl⟩ := mem_map.mp paired
      exact inv.eligible (mem_kindPairs inside).2.1
  · exact inv.eligible (open_after_set opened).1
  · obtain ⟨wasOpen, notPaired⟩ := open_after_set opened
    rcases holds_assignAll held with before | paired
    · exact inv.free above wasOpen notAnchor before
    · exact notPaired paired

theorem mem_similarPairs {old new : List (Option Text)} (inside : found ∈ similarPairs old new) :
    (old.getD found.2.1 none).isSome = true ∧ (new.getD found.2.2 none).isSome = true := by
  obtain ⟨⟨oldText, _⟩, isOld, inside⟩ := mem_flatMap.mp inside
  cases oldText with
  | none => cases inside
  | some =>
    obtain ⟨⟨newText, _⟩, isNew, same⟩ := mem_filterMap.mp inside
    cases newText with
    | none => cases same
    | some =>
      dsimp only at same
      split at same
      · cases same
        rw [getD_eq_getElem?_getD, mem_zipIdx_iff_getElem?.mp isOld,
          getD_eq_getElem?_getD, mem_zipIdx_iff_getElem?.mp isNew]
        exact ⟨rfl, rfl⟩
      · cases same

theorem open_of_gap {texts : List (Option Text)} {start length index : Nat}
    (some : (((texts.drop start).take length).getD index none).isSome = true) :
    index < length ∧ (texts.getD (start + index) none).isSome = true := by
  rw [getD_eq_getElem?_getD, getElem?_take] at some
  split at some
  next inside =>
    rw [getElem?_drop] at some
    exact ⟨inside, by rwa [getD_eq_getElem?_getD]⟩
  next => cases some

theorem bestPairs_nodup (old new : List (Option Text)) (oldOffset newOffset : Nat) :
    ((bestPairs old new oldOffset newOffset).map Prod.fst).Nodup := by
  have distinct := greedy_nodup (((similarPairs old new).mergeSort closer).map Prod.snd) [] []
  rw [bestPairs, map_map]
  have shape : (Prod.fst ∘ fun pair : Nat × Nat => (oldOffset + pair.1, newOffset + pair.2)) =
      (oldOffset + ·) ∘ Prod.fst := rfl
  rw [shape, ← map_map]
  exact distinct.map fun _ _ same => add_left_cancel same

theorem mem_bestPairs {old new : List (Option Text)}
    (inside : pair ∈ bestPairs old new oldOffset newOffset) :
    (∃ index, pair.1 = oldOffset + index ∧ (old.getD index none).isSome = true) ∧
      ∃ index, pair.2 = newOffset + index ∧ (new.getD index none).isSome = true := by
  obtain ⟨_, inGreedy, rfl⟩ := mem_map.mp inside
  obtain ⟨_, inScores, same⟩ := mem_map.mp (mem_greedy inGreedy).1
  have ⟨isOld, isNew⟩ := mem_similarPairs (mem_mergeSort.mp inScores)
  rw [← same]
  exact ⟨⟨_, rfl, isOld⟩, _, rfl, isNew⟩

theorem Filling.fillGap (inv : Filling old oldStart (anchor :: anchors) pass)
    (ahead : Ahead oldStart (anchor :: anchors)) (slices : List Text) (newStart : Nat) :
    Filling old (anchor.1 + 1) anchors (fillGap old slices pass oldStart newStart anchor) := by
  have kinds := inv.sameKindPairs ahead slices newStart
  unfold Report.fillGap
  generalize Report.sameKindPairs old slices pass oldStart anchor.1 newStart anchor.2 = pass at *
  -- what similarity assigns is open, and lies in the gap before the anchor
  have inGap : ∀ pair ∈ bestPairs ((pass.oldText.drop oldStart).take (anchor.1 - oldStart))
      ((pass.newText.drop newStart).take (anchor.2 - newStart)) oldStart newStart,
      oldStart ≤ pair.1 ∧ pair.1 < anchor.1 ∧ pass.Open pair.1 := fun pair inside => by
    obtain ⟨_, same, some⟩ := (mem_bestPairs inside).1
    obtain ⟨below, opened⟩ := open_of_gap some
    rw [same]
    exact ⟨by omega, by omega, opened⟩
  refine ⟨kinds.once.assignAll (bestPairs_nodup _ _ _ _) fun pair inside => ?_, fun held => ?_,
    kinds.eligible, fun above opened notAnchor held => ?_⟩
  · obtain ⟨above, below, opened⟩ := inGap pair inside
    exact kinds.free above opened (ahead.not_mem below)
  · rcases holds_assignAll held with before | paired
    · exact kinds.held before
    · obtain ⟨pair, inside, rfl⟩ := mem_map.mp paired
      exact kinds.eligible (inGap pair inside).2.2
  · have start := ahead.1 anchor mem_cons_self
    rcases holds_assignAll held with before | paired
    · refine kinds.free (by omega) opened ?_ before
      rw [map_cons, mem_cons, not_or]
      exact ⟨by omega, notAnchor⟩
    · obtain ⟨pair, inside, rfl⟩ := mem_map.mp paired
      have := (inGap pair inside).2.1
      omega

theorem Ahead.tail (ahead : Ahead start (anchor :: anchors)) : Ahead (anchor.1 + 1) anchors :=
  ⟨fun _ later => rel_of_pairwise_cons ahead.2 later, ahead.2.of_cons⟩

theorem fillGaps_filling (inv : Filling old oldStart anchors pass) (ahead : Ahead oldStart anchors)
    (slices : List Text) (newStart : Nat) :
    (fillGaps old slices pass oldStart newStart anchors).slots.OneToOne ∧
      ∀ {index}, (fillGaps old slices pass oldStart newStart anchors).slots.Holds index →
        reusable old index = true := by
  induction anchors generalizing pass oldStart newStart with
  | nil => exact ⟨inv.once, inv.held⟩
  | cons _ _ ih => exact ih (inv.fillGap ahead slices newStart) ahead.tail _

theorem open_oldTexts (opened : ((oldTexts old taken).getD index none).isSome = true) :
    reusable old index = true ∧ index ∉ taken := by
  rw [getD_eq_getElem?_getD, oldTexts, getElem?_map, getElem?_zipIdx] at opened
  cases found : old[index]? with
  | none => rw [found] at opened; cases opened
  | some =>
    simp only [found, Option.map_some, Option.getD_some, zero_add] at opened
    split at opened
    next free => simpa using free
    next => cases opened

theorem ahead_anchors {oldText newText : List (Option Text)} (length : oldText.length = oldEnd) :
    Ahead 0 (lcsMatches oldText newText ++ [(oldEnd, newEnd)]) := by
  refine ⟨fun _ _ => zero_le _, pairwise_append.mpr
    ⟨(common_lcsMatches _ _).increasing.imp And.left, pairwise_singleton _ _,
      fun anchor inside last isLast => ?_⟩⟩
  obtain rfl := mem_singleton.mp isLast
  exact length ▸ (mem_lcsWalk inside).2.1

/-- **Every slice continues a block of its own**, the first one with its id. -/
theorem assignments_oneToOne (old : List (ReportBlock N)) (slices : List Text)
    (hints : List (Option Text)) :
    (assignments old slices hints).OneToOne ∧
      ∀ {index}, (assignments old slices hints).Holds index → reusable old index = true := by
  have bound := bindHints_bound old slices hints
  unfold assignments
  generalize bindHints old slices hints = hinted at *
  obtain ⟨slots, taken⟩ := hinted
  dsimp only at bound ⊢
  have anchored : ∀ pair ∈ lcsMatches (oldTexts old taken) (newTexts N slots slices),
      reusable old pair.1 = true ∧ pair.1 ∉ taken := fun pair inside =>
    open_oldTexts (isSome_of_sameEntry (mem_lcsWalk inside).2.2).1
  refine fillGaps_filling ?_ (ahead_anchors (by simp [oldTexts])) slices 0
  refine ⟨bound.once.assignAll ?_ fun pair inside held => ?_, fun held => ?_,
    fun opened => (open_oldTexts opened).1, fun _ opened notAnchor held => ?_⟩
  · exact pairwise_map.mpr ((common_lcsMatches _ _).increasing.imp fun less => by omega)
  · exact (anchored pair inside).2 (bound.recorded held)
  · rcases holds_assignAll held with before | paired
    · exact bound.reusable before
    · obtain ⟨pair, inside, rfl⟩ := mem_map.mp paired
      exact (anchored pair inside).1
  · rcases holds_assignAll held with before | paired
    · exact (open_oldTexts opened).2 (bound.recorded before)
    · exact notAnchor (by rw [map_append]; exact mem_append_left _ paired)

end Passes

/-! ## What a reassignment gives -/

variable {old : List (ReportBlock N)}

theorem probe_fresh {id : Text} (found : probe used start left candidate = some id) :
    id ∉ used := by
  induction left generalizing candidate with
  | zero => cases found
  | succ _ ih =>
    rw [probe] at found
    split at found
    · exact ih found
    next fresh => exact Option.some.inj found ▸ fresh

theorem mintId_fresh {index : Nat} {id : Text} (minted : mintId raw index used = some id) :
    id ∉ used := probe_fresh minted

@[simp] theorem blockOf_id (slice id : Text) (rev : UInt32) :
    (blockOf (N := N) slice id rev).id = id := by
  unfold blockOf; split <;> rfl

@[simp] theorem blockOf_rev (slice id : Text) (rev : UInt32) :
    (blockOf (N := N) slice id rev).rev = rev := by
  unfold blockOf; split <;> rfl

/-- Where the block of a slice comes from. -/
inductive Origin (old : List (ReportBlock N)) (reserved : List Text) (slice : Text)
    (block : ReportBlock N) : Prop
  | continued (from_ : ReportBlock N) (known : from_ ∈ old)
    (same : block = blockOf slice from_.id (continuedRev from_ slice))
  | fresh (id : Text) (unused : id ∉ old.map ReportBlock.id ++ reserved)
    (same : block = blockOf slice id 1)

/-- The list result of a rewrite: a block for each slice, with distinct ids. -/
structure Aligned (old : List (ReportBlock N)) (reserved : List Text) (slices : List Text)
    (blocks : List (ReportBlock N)) : Prop where
  each : List.Forall₂ (Origin old reserved) slices blocks
  distinct : (blocks.map ReportBlock.id).Nodup

/-- The ids of new blocks: those of the old blocks that later slots hold, or unused ones. -/
def IdFrom (old : List (ReportBlock N)) (slots : Slots) (index : Nat) (used : List Text)
    (id : Text) : Prop :=
  (∃ j oldIndex block, index ≤ j ∧ slots[j]? = some (some oldIndex) ∧ old[oldIndex]? = some block ∧
    id = block.id) ∨ id ∉ used

theorem newBlocks_spec {reserved : List Text} (once : slots.OneToOne)
    (held : ∀ {index}, slots.Holds index → reusable old index = true) {slices used : List Text}
    {blocks : List (ReportBlock N)} (known : ∀ id ∈ old.map ReportBlock.id ++ reserved, id ∈ used)
    (made : newBlocks old slots index slices used = some blocks) :
    Aligned old reserved slices blocks ∧
      ∀ block ∈ blocks, IdFrom old slots index used block.id := by
  induction slices generalizing index used blocks with
  | nil =>
    cases made
    exact ⟨⟨.nil, nodup_nil⟩, nofun⟩
  | cons _ _ ih =>
    rw [newBlocks] at made
    cases slot : slots.getD index none with
      simp only [slot, Option.bind_eq_bind, Option.bind_eq_some_iff, Option.pure_def,
        Option.some.injEq] at made
    | some oldIndex =>
      obtain ⟨block, atOld, _, found, rfl⟩ := made
      obtain ⟨aligned, ids⟩ := ih known found
      have here := getElem?_of_getD slot
      have member : block ∈ old := mem_of_getElem? atOld
      refine ⟨⟨.cons (.continued block member rfl) aligned.each,
        nodup_cons.mpr ⟨fun again => ?_, aligned.distinct⟩⟩, fun other inside => ?_⟩
      · obtain ⟨other, later, same⟩ := mem_map.mp again
        rw [blockOf_id] at same
        rcases ids other later with ⟨j, _, _, _, atJ, atOther, its⟩ | unused
        · have equal := eq_of_reusable atOld atOther (held ⟨_, here⟩) (held ⟨_, atJ⟩) (same ▸ its)
          have := once index j oldIndex here (equal ▸ atJ)
          omega
        · exact unused (known _ (mem_append_left _ (mem_map.mpr ⟨block, member, same.symm⟩)))
      · rcases mem_cons.mp inside with rfl | later
        · exact .inl ⟨index, oldIndex, block, le_rfl, here, atOld, blockOf_id ..⟩
        · rcases ids other later with ⟨j, k, b, _, facts⟩ | unused
          · exact .inl ⟨j, k, b, by omega, facts⟩
          · exact .inr unused
    | none =>
      obtain ⟨id, minted, _, found, rfl⟩ := made
      have fresh := mintId_fresh minted
      obtain ⟨aligned, ids⟩ := ih (fun other inside => mem_cons_of_mem _ (known other inside)) found
      refine ⟨⟨.cons (.fresh id (fun inside => fresh (known id inside)) rfl) aligned.each,
        nodup_cons.mpr ⟨fun again => ?_, aligned.distinct⟩⟩, fun other inside => ?_⟩
      · obtain ⟨other, later, same⟩ := mem_map.mp again
        rw [blockOf_id] at same
        rcases ids other later with ⟨j, k, b, -, -, atOld, its⟩ | unused
        · refine fresh (known id (mem_append_left _ (mem_map.mpr ⟨b, ?_, ?_⟩)))
          · exact mem_of_getElem? atOld
          · exact its.symm.trans same
        · exact unused (same ▸ mem_cons_self)
      · rcases mem_cons.mp inside with rfl | later
        · exact .inr (by rwa [blockOf_id])
        · rcases ids other later with ⟨j, k, b, _, facts⟩ | unused
          · exact .inl ⟨j, k, b, by omega, facts⟩
          · exact .inr fun inUsed => unused (mem_cons_of_mem _ inUsed)

/-- **A reassignment is aligned**, whatever was matched. -/
theorem reassign_aligned
    (made : reassignIdsWithHintsReserving old slices hints reserved = some blocks) :
    Aligned old reserved slices blocks := by
  obtain ⟨once, held⟩ := assignments_oneToOne old slices hints
  exact (newBlocks_spec once held (fun _ inside => inside) made).1

/-! ## Fresh ids do not run out -/

theorem hexDigit_inj (small : a < 16) (small' : b < 16) (same : hexDigit a = hexDigit b) :
    a = b := by
  have left := hexValue_hexDigit a small
  rw [same, hexValue_hexDigit b small'] at left
  exact (Option.some.inj left).symm

theorem hexId_inj (small : m < 65536) (small' : n < 65536) (same : hexId m = hexId n) : m = n := by
  simp only [hexId, cons.injEq, true_and, and_true] at same
  obtain ⟨one, two, three, four⟩ := same
  have digit : ∀ {a b : Nat}, hexDigit (a % 16) = hexDigit (b % 16) → a % 16 = b % 16 :=
    hexDigit_inj (mod_lt _ (by decide)) (mod_lt _ (by decide))
  have first := digit one
  have second := digit two
  have third := digit three
  have fourth := digit four
  omega

theorem probe_isSome (inside : later < left)
    (free : hexId ((start + (candidate + later)) % 65536) ∉ used) :
    (probe used start left candidate).isSome = true := by
  induction left generalizing candidate later with
  | zero => omega
  | succ _ ih =>
    rw [probe]
    split
    next taken =>
      cases later with
      | zero => exact absurd taken free
      | succ later =>
        refine ih (lt_of_succ_lt_succ inside) ?_
        rwa [add_assoc, add_comm 1 later]
    next => rfl

/-- **An id is found as long as not all are used.** -/
theorem mintId_isSome (room : used.toFinset.card < 65536) (raw : Text) (index : Nat) :
    (mintId raw index used).isSome = true := by
  let start := (mintHash raw index).toNat % 65536
  let ids := (Finset.range 65536).image fun later => hexId ((start + (0 + later)) % 65536)
  have many : ids.card = 65536 := by
    rw [Finset.card_image_of_injOn, Finset.card_range]
    intro a small b small' same
    have below : a < 65536 := Finset.mem_range.mp small
    have below' : b < 65536 := Finset.mem_range.mp small'
    have := hexId_inj (mod_lt _ (by omega)) (mod_lt _ (by omega)) same
    omega
  obtain ⟨_, isId, free⟩ := Finset.exists_mem_notMem_of_card_lt_card (room.trans_eq many.symm)
  obtain ⟨_, small, rfl⟩ := Finset.mem_image.mp isId
  exact probe_isSome (Finset.mem_range.mp small) fun used => free (mem_toFinset.mpr used)

example : mintId "# A\n".toList 0 [] = some "b_f8ad".toList := by decide +kernel

/-- How many of the slices from `index` on continue no block. -/
def unbound (slots : Slots) : Nat → List Text → Nat
  | _, [] => 0
  | index, _ :: rest =>
    unbound slots (index + 1) rest + if slots.getD index none = none then 1 else 0

theorem unbound_le (slots : Slots) (index : Nat) (slices : List Text) :
    unbound slots index slices ≤ slices.length := by
  induction slices generalizing index with
  | nil => exact le_rfl
  | cons _ _ ih =>
    rw [unbound, length_cons]
    have := ih (index + 1)
    split <;> omega

theorem newBlocks_isSome (held : ∀ {index}, slots.Holds index → reusable old index = true)
    (room : used.toFinset.card + unbound slots index slices ≤ 65536) :
    (newBlocks old slots index slices used).isSome = true := by
  induction slices generalizing index used with
  | nil => rfl
  | cons slice rest ih =>
    rw [unbound] at room
    rw [newBlocks]
    cases slot : slots.getD index none with
    | some oldIndex =>
      have first := held ⟨index, getElem?_of_getD slot⟩
      have more : (newBlocks old slots (index + 1) rest used).isSome = true := ih (by omega)
      obtain ⟨_, made⟩ := Option.isSome_iff_exists.mp more
      cases atOld : old[oldIndex]? with
      | none => simp [reusable, atOld] at first
      | some => simp [atOld, made]
    | none =>
      rw [if_pos slot] at room
      have free : used.toFinset.card < 65536 := by omega
      obtain ⟨id, minted⟩ := Option.isSome_iff_exists.mp (mintId_isSome free slice index)
      have grown : (id :: used).toFinset.card ≤ used.toFinset.card + 1 := by
        rw [toFinset_cons]
        exact Finset.card_insert_le _ _
      have more : (newBlocks old slots (index + 1) rest (id :: used)).isSome = true := ih (by omega)
      obtain ⟨_, made⟩ := Option.isSome_iff_exists.mp more
      simp [minted, made]

/-- **A reassignment succeeds** while old, reserved and new ids are at most 65,536. -/
theorem reassign_isSome
    (room : (old.map ReportBlock.id ++ reserved).toFinset.card + slices.length ≤ 65536)
    (hints : List (Option Text)) :
    (reassignIdsWithHintsReserving old slices hints reserved).isSome = true := by
  have few := unbound_le (assignments old slices hints) 0 slices
  exact newBlocks_isSome (assignments_oneToOne old slices hints).2 (by omega)

theorem reassign_of_few (old : List (ReportBlock N)) (slices reserved : List Text)
    (few : old.length + reserved.length + slices.length ≤ 65536) (hints : List (Option Text)) :
    ∃ blocks, reassignIdsWithHintsReserving old slices hints reserved = some blocks := by
  have card := toFinset_card_le (old.map ReportBlock.id ++ reserved)
  rw [length_append, length_map] at card
  exact Option.isSome_iff_exists.mp (reassign_isSome (by omega) hints)

/-! ## Rewriting a report with its own texts -/

section Same

variable {blocks : List (ReportBlock N)}

/-- The block that its own text is read as. -/
structure SelfRead (block : ReportBlock N) : Prop where
  same : blockOf (flatText block) block.id block.rev = block
  text : comparableFlat block = some (canonical (N := N) (flatText block))

/-- Nothing happens in a gap without old blocks. -/
theorem fillGap_empty (old : List (ReportBlock N)) (slices : List Text) (pass : Pass)
    (start newStart : Nat) : fillGap old slices pass start newStart (start, newEnd) = pass := by
  simp [fillGap, sameKindPairs, kindPairs, similarityMatches, bestPairs, similarPairs, greedy,
    assignAll]

theorem fillGaps_diagonal (old : List (ReportBlock N)) (slices : List Text) (pass : Pass)
    (start count : Nat) :
    fillGaps old slices pass start start
      ((range' start count).map (fun i => (i, i)) ++ [(start + count, slices.length)]) =
      pass := by
  induction count generalizing start with
  | zero => exact fillGap_empty old slices pass start start
  | succ count ih =>
    rw [range'_succ, map_cons, cons_append, fillGaps, fillGap_empty]
    have := ih (start + 1)
    rwa [show start + 1 + count = start + (count + 1) by omega] at this

theorem oldTexts_self (distinct : (blocks.map ReportBlock.id).Nodup) :
    oldTexts blocks [] = blocks.map comparableFlat := by
  refine ext_getElem (by simp [oldTexts]) fun index inside _ => ?_
  have inside : index < blocks.length := by simpa [oldTexts] using inside
  simp [oldTexts, reusable_of_nodup distinct inside]

theorem newTexts_unbound (slices : List Text) :
    newTexts N (replicate slices.length none) slices =
      slices.map fun slice => some (canonical (N := N) slice) := by
  refine ext_getElem (by simp [newTexts]) fun index inside _ => ?_
  simp [newTexts]

/-- Without hints, slices whose texts are those of the blocks continue them one by one. -/
theorem assignments_same (distinct : (blocks.map ReportBlock.id).Nodup)
    (unhinted : ∀ hint ∈ hints, hint = none)
    (same : slices.map (fun slice => some (canonical (N := N) slice)) = blocks.map comparableFlat)
    (inside : index < blocks.length) :
    (assignments blocks slices hints).getD index none = some index := by
  have count : slices.length = blocks.length := by simpa using congrArg length same
  have anchors : lcsMatches (blocks.map comparableFlat) (blocks.map comparableFlat) =
      (range' 0 blocks.length).map fun i => (i, i) := by
    rw [lcsMatches_self, length_map, range_eq_range']
    intro entry inside
    rw [← same] at inside
    obtain ⟨_, -, rfl⟩ := mem_map.mp inside
    rfl
  have gaps := fillGaps_diagonal blocks slices
    { slots := assignAll (replicate slices.length none)
        ((range' 0 blocks.length).map fun i => (i, i))
      oldText := blocks.map comparableFlat, newText := blocks.map comparableFlat } 0 blocks.length
  rw [zero_add] at gaps
  rw [assignments, bindHints_unhinted unhinted]
  simp only [oldTexts_self distinct, newTexts_unbound, same, anchors, gaps]
  rw [getD_eq_getElem?_getD, getElem?_assignAll_self (by simpa using inside)
    (by rwa [length_replicate, count])]
  rfl

theorem assignments_self (distinct : (blocks.map ReportBlock.id).Nodup)
    (settled : ∀ block ∈ blocks, SelfRead block) (inside : index < blocks.length) :
    (assignments blocks (blocks.map flatText) []).getD index none = some index := by
  refine assignments_same distinct (fun _ none => absurd none not_mem_nil) ?_ inside
  rw [map_map]
  exact map_congr_left fun block known => (settled block known).text.symm

/-- Blocks that each continue themselves with their own texts stay as they are. -/
theorem newBlocks_self (settled : ∀ block ∈ blocks, SelfRead block)
    (self : ∀ {index}, index < blocks.length → slots.getD index none = some index) :
    newBlocks blocks slots 0 (blocks.map flatText) used = some blocks := by
  -- the blocks from `index` on are made from the texts from `index` on
  suffices ∀ (done rest : List (ReportBlock N)), blocks = done ++ rest →
      newBlocks blocks slots done.length (rest.map flatText) used = some rest from
    this [] blocks rfl
  intro done rest split
  induction rest generalizing done with
  | nil => rfl
  | cons block _ ih =>
    have here : done.length < blocks.length := by rw [split]; simp
    have atOld : blocks[done.length]? = some block := by rw [split]; simp
    have own := settled block (split ▸ mem_append_right _ mem_cons_self)
    have later := ih (done ++ [block]) (by rw [split]; simp)
    rw [length_append, length_singleton] at later
    have same : continuedRev block (flatText block) = block.rev := if_pos own.text
    simp only [map_cons, newBlocks, self here, atOld, Option.bind_eq_bind, Option.bind_some,
      later, same, own.same, Option.pure_def]

/-- **A report rewritten with its own texts is the same report.** -/
theorem reassignIds_self (distinct : (blocks.map ReportBlock.id).Nodup)
    (settled : ∀ block ∈ blocks, SelfRead block) :
    reassignIds blocks (blocks.map flatText) = some blocks :=
  newBlocks_self settled (assignments_self distinct settled)

end Same

end NeigeCalm.Report
