import NeigeCalm.Error
import NeigeCalm.Report.Document

/-!
# What a block may hold

Every write funnels its content through these rules before anything is stored.  Prose may
not carry a `neige-block` fence, well-formed or mistyped, and the payload of a data block
must pass the schema of its kind.  The schemas are a parameter: for each data kind, the
list of violations of a payload.
-/

namespace NeigeCalm.Report

open Library

variable {N : Type} [JsonReader N]

/-! ## Prose -/

def embeddedFenceError : Text :=
  ("prose markdown may not embed a ```neige-block fence — create the data block with its own " ++
    "kind").toList

variable (N) in
/-- Markdown may not smuggle a fence. -/
def checkProseMarkdown (markdown : Text) : Except Text Unit :=
  match invalidNeigeFences N markdown with
  | first :: _ => .error first
  | [] =>
    if (splitBody N markdown).any fun slice =>
        (parseFence (N := N) slice).isSome then .error embeddedFenceError
    else .ok ()

/-! ## Data -/

def typeName : Json N → Text
  | .null => "null".toList
  | .bool _ => "boolean".toList
  | .number _ => "number".toList
  | .string _ => "string".toList
  | .array _ => "array".toList
  | .object _ => "object".toList

def maxCanonicalBytes : Nat := 256 * 1024

/-- The length of a text in bytes. -/
def byteLength (text : Text) : Nat := (text.map Char.utf8Size).sum

def joinTexts (separator : String) (texts : List Text) : Text :=
  List.intercalate separator.toList texts

/-- The violations a kind's schema finds in an object. -/
abbrev Schemas (N : Type) := Text → Json N → List Text

def unknownKindError (kind : Text) : Text :=
  "unknown block kind `".toList ++ kind ++ "` — known data kinds: ".toList ++
    joinTexts ", " dataKinds

def tooLargeError (length : Nat) : Text :=
  "payload too large: canonical JSON is ".toList ++ DocError.ofNat length ++
    " bytes, limit is 262144 bytes (256KB) per block".toList

/-- A payload against the schema of its kind; an unknown kind is an error of its own. -/
def validatePayload (schemas : Schemas N) (kind : Text) (payload : Json N) : Except Text Unit :=
  if payload.isObject then
    let errors := if kind ∈ dataKinds then schemas kind payload else [unknownKindError kind]
    -- the total size is checked only when the shape is otherwise valid
    let length := byteLength (canonicalJson payload)
    let errors :=
      if errors = [] ∧ maxCanonicalBytes < length then [tooLargeError length] else errors
    if errors = [] then .ok () else .error (joinTexts "; " errors)
  else .error ("payload must be a JSON object, got ".toList ++ typeName payload)

/-! ## Writes -/

def checkFencePayload (schemas : Schemas N) (fence : NonProseFence N) : Except CalmError Unit :=
  match validatePayload schemas fence.kind fence.payload with
  | .error errors => .error (.badRequest ("invalid `".toList ++ fence.kind ++
      "` block payload: ".toList ++ errors ++ " (see neige_report_describe)".toList))
  | .ok () => .ok ()

/-- The fence that a slice is, if it is one, must have a valid payload. -/
def checkSlice (schemas : Schemas N) (slice : Text) : Except CalmError Unit :=
  match parseFence slice with
  | some fence => checkFencePayload schemas fence
  | none => .ok ()

/-- A body may hold no malformed fence and no invalid payload. -/
def validateBodyFences (schemas : Schemas N) (body : Text) : Except CalmError Unit :=
  match invalidNeigeFences N body with
  | first :: _ => .error (.badRequest (first ++
      (" — fix the fence or remove it (see neige_report_describe for payload " ++
        "schemas)").toList))
  | [] => (splitBody N body).forM (checkSlice schemas)

/-! ## What passes -/

theorem checkProseMarkdown_ok (checked : checkProseMarkdown N markdown = .ok ()) :
    invalidNeigeFences N markdown = [] ∧ ∀ slice ∈ splitBody N markdown,
      (parseFence (N := N) slice) = none := by
  unfold checkProseMarkdown at checked
  split at checked
  · cases checked
  next clean =>
    split at checked
    · cases checked
    next none =>
      refine ⟨clean, fun slice inside => ?_⟩
      rw [List.any_eq_true] at none
      rw [← Option.not_isSome_iff_eq_none]
      exact fun isFence => none ⟨slice, inside, isFence⟩

end NeigeCalm.Report
