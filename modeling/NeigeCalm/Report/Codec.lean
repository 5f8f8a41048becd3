import NeigeCalm.Library.JsonOrder
import NeigeCalm.Report.Cutting
import NeigeCalm.Report.Lossless

/-!
# The fence codec

A data block is written as a fence and read back from it.  Its JSON is canonical: equal texts
are exactly equal values, whatever their key order.  `fence_codec_exact` puts this together
with the cuts of a body: a fence that is rendered outside every other fence is cut out as one
slice, whatever its payload holds.
-/

namespace NeigeCalm.Report

open Library List Json

variable {N : Type} [JsonReader N]

/-! ## Canonical JSON does not depend on the key order -/

theorem byKey_byKey {α : Type} {members : List (Text × α)} (keys : (members.map Prod.fst).Nodup) :
    byKey (byKey members) = byKey members :=
  byKey_eq_of_perm (keys_byKey keys) (byKey_perm members)

/-- The lines of an object, in key order. -/
theorem byKey_memberTexts {members : List (Text × Json N)} (keys : (members.map Prod.fst).Nodup) :
    byKey (memberTexts indent members) =
      (byKey members).map fun member => (member.1, writeValue indent member.2) := by
  rw [memberTexts_eq_map, byKey_map _ keys]

theorem isEmpty_byKey {α : Type} (members : List (Text × α)) :
    (byKey members).isEmpty = members.isEmpty := by
  rw [Bool.eq_iff_iff, List.isEmpty_iff, List.isEmpty_iff, ← length_eq_zero_iff,
    ← length_eq_zero_iff, (byKey_perm members).length_eq]

/-- **Canonical JSON is written in key order already.** -/
theorem writeValue_inKeyOrder {value : Json N} (distinct : Json.Distinct value) (indent : Nat) :
    writeValue indent value.inKeyOrder = writeValue indent value := by
  induction distinct generalizing indent with
  | null | bool | number | string => rfl
  | @array items _ ih =>
    have scalars : (items.map inKeyOrder).all isScalar = items.all isScalar := by
      rw [all_map]
      exact congrArg items.all (funext fun _ => isScalar_inKeyOrder)
    have each : (items.map inKeyOrder).map (writeValue (indent + 1)) =
        items.map (writeValue (indent + 1)) := by
      rw [map_map]
      exact map_congr_left fun item inside => ih item inside _
    rw [inKeyOrder_array, writeValue, writeValue, isEmpty_map, scalars, itemTexts_eq_map,
      itemTexts_eq_map, each]
    split
    · rfl
    split
    next allScalar =>
      have same : items.map inKeyOrder = items.map id :=
        map_congr_left fun item inside =>
          inKeyOrder_of_isScalar (all_eq_true.mp allScalar item inside)
      rw [same, map_id]
    next => rfl
  | @object members keys _ ih =>
    have texts : byKey (memberTexts (indent + 1) ((byKey members).map fun member =>
        (member.1, member.2.inKeyOrder))) = byKey (memberTexts (indent + 1) members) := by
      rw [memberTexts_eq_map, map_map, byKey_memberTexts keys]
      have each : (byKey members).map ((fun member : Text × Json N =>
            (member.1, writeValue (indent + 1) member.2)) ∘
            fun member => (member.1, member.2.inKeyOrder)) =
          (byKey members).map fun member => (member.1, writeValue (indent + 1) member.2) :=
        map_congr_left fun member inside =>
          congrArg (Prod.mk member.1) (ih member ((byKey_perm members).mem_iff.mp inside) _)
      rw [each, byKey_map _ (keys_byKey keys), byKey_byKey keys]
    rw [inKeyOrder_object keys, writeValue, writeValue, isEmpty_map, isEmpty_byKey]
    split
    · rfl
    · simp only [byKey] at texts ⊢
      rw [texts]

/-- **Equal canonical texts are equal values, whatever their key order.** -/
theorem canonicalJson_eq_iff {value other : Json N} (distinct : Json.Distinct value)
    (distinct' : Json.Distinct other) :
    canonicalJson value = canonicalJson other ↔ Json.Same value other := by
  rw [same_iff_inKeyOrder distinct distinct', canonicalJson, canonicalJson,
    ← writeValue_inKeyOrder distinct, ← writeValue_inKeyOrder distinct']
  constructor
  · intro same
    obtain ⟨depth, valid⟩ := distinct.valid
    obtain ⟨depth', valid'⟩ := distinct'.valid
    have read := parse_canonicalJson (valid.mono (Nat.le_max_left depth depth'))
    have read' := parse_canonicalJson (valid'.mono (Nat.le_max_right depth depth'))
    rw [canonicalJson] at read read'
    rw [same, read'] at read
    exact (Option.some.inj read).symm
  · intro same
    rw [same]

/-! ## The codec -/

/-- What is read from a text and rendered is read as the same again. -/
theorem parseFence_rendered_again {fence : NonProseFence N} (read : parseFence text = some fence) :
    parseFence (renderFence fence.kind fence.payload) = some fence := by
  obtain ⟨kind, payload⟩ := parseFence_valid read
  exact parseFence_renderFence kind payload

/-- A rendered fence is cut out where no fence is open. -/
theorem splitBody_renderFence {payload : Json N} (validKind : ValidKind kind)
    (valid : ValidPayload payload) (ended : Text.Ended before)
    (balanced : Balanced (Text.lines before)) (after : Text) :
    ∃ earlier later, splitBody N (before ++ renderFence kind payload ++ after) =
      earlier ++ renderFence kind payload :: later ∧ earlier.flatten = before ∧
      later.flatten = after := by
  have read := parseFence_renderFence validKind valid
  obtain ⟨opener, inner, close, lines, isOpener, inside, closes⟩ := parseFence_lines read
  have fenceEnds : Text.Ended (renderFence kind payload) :=
    .inr (by rw [renderFence, getLast?_concat])
  have split : Text.lines (before ++ renderFence kind payload ++ after) =
      Text.lines before ++ Text.lines (renderFence kind payload) ++ Text.lines after := by
    rw [append_assoc, Text.lines_append ended, Text.lines_append fenceEnds, append_assoc]
  have formed : WellFormed N (Text.lines (renderFence kind payload)).flatten := by
    rw [Text.lines_flatten, ← parseFence_isSome_iff, read]
    rfl
  obtain ⟨earlier, later, slices, front, back⟩ := cut_slice split balanced
    ⟨opener, inner, close, lines, isOpener, inside, closes⟩ formed
  rw [Text.lines_flatten] at slices front back
  exact ⟨earlier, later, slices, front, back⟩

/-- What the fence codec keeps. -/
structure CodecExact (N : Type) [JsonReader N] : Prop where
  readBack : ∀ (kind : Text) (payload : Json N), ValidKind kind → ValidPayload payload →
    parseFence (renderFence kind payload) = some ⟨kind, payload⟩
  canonical : ∀ value other : Json N, Json.Distinct value → Json.Distinct other →
    (canonicalJson value = canonicalJson other ↔ Json.Same value other)
  /-- Rendering what was read is idempotent. -/
  settled : ∀ (text : Text) (fence : NonProseFence N), parseFence text = some fence →
    parseFence (renderFence fence.kind fence.payload) = some fence ∧
      Report.canonical (N := N) (Report.canonical (N := N) text) = Report.canonical (N := N) text
  cut : ∀ (kind : Text) (payload : Json N) (before after : Text), ValidKind kind →
    ValidPayload payload → Text.Ended before → Balanced (Text.lines before) →
    ∃ earlier later, splitBody N (before ++ renderFence kind payload ++ after) =
      earlier ++ renderFence kind payload :: later ∧ earlier.flatten = before ∧
      later.flatten = after

/-- **The fence codec round-trips and is canonical**, and its fences are cut out. -/
theorem fence_codec_exact (N : Type) [JsonReader N] : CodecExact N where
  readBack _ _ := parseFence_renderFence
  canonical _ _ := canonicalJson_eq_iff
  settled text _ read := ⟨parseFence_rendered_again read, canonical_canonical text⟩
  cut _ _ _ after validKind valid ended balanced :=
    splitBody_renderFence validKind valid ended balanced after

end NeigeCalm.Report
