import NeigeCalm.Library.Digraph
import NeigeCalm.Report.Guard

/-!
# Task declarations of a report

The task blocks of a report declare tasks, each with a key and the keys it depends on.  The
projection reads the declarations and gives every block its diagnostics: a payload its schema
refuses, a key declared twice, a key a tombstone holds, and a key on a dependency cycle.

A tombstone is the declaration of a withdrawn task.  Its payload has no fields but its key, its
author and the tombstone itself, so the schema of a tombstone is modelled in full; what the
schema asks of a live task beyond its key is a parameter, of which the projection relies on one
thing only, that an accepted payload names its author.
-/

namespace NeigeCalm.Report

open Library Std

variable {N : Type} [JsonReader N]

/-! ## Payloads -/

/-- The text a payload has in a field. -/
def strAt (payload : Json N) (field : Text) : Option Text := (payload.get field).bind Json.asStr

/-- A tombstone is any value but null. -/
def hasTombstone (payload : Json N) : Bool :=
  match payload.get "tombstone".toList with
  | none | some .null => false
  | some _ => true

/-- A terminal task once stored its command as the goal. -/
def normalizeLegacyTerminalCommand (payload : Json N) : Json N :=
  match payload with
  | .object members =>
    if strAt payload "kind".toList ≠ some "terminal".toList ∨
        (payload.get "command".toList).isSome then payload
    else match payload.get "goal".toList with
      | some (.string goal) =>
        .object (Json.insertMember "command".toList (.string goal)
          (members.filter (·.1 ≠ "goal".toList)))
      | _ => payload
  | _ => payload

/-! ## The schema -/

def taskFields : List Text :=
  ["key", "kind", "goal", "command", "acceptance", "gate", "no_gate_reason", "depends_on",
    "priority", "cwd", "context", "refs", "ready", "declared_by", "released_by_user", "spawn",
    "access", "head", "base", "start", "result_contract", "child_track", "tombstone",
    "tombstoned_by"].map String.toList

/-- The fields a tombstone keeps. -/
def tombstoneFields : List Text :=
  ["key", "tombstone", "declared_by", "tombstoned_by"].map String.toList

def maxStringChars : Nat := 2048

def rejectUnknown (payload : Json N) (allowed : List Text) : List Text :=
  match payload with
  | .object members =>
    (members.filter (·.1 ∉ allowed)).map fun member => member.1 ++ ": unknown field".toList
  | _ => []

def checkStringCap (path value : Text) : List Text :=
  if maxStringChars < value.length then
    [path ++ ": string too long (".toList ++ DocError.ofNat value.length ++
      " chars), limit is 2048".toList]
  else []

/-- `^[a-z0-9][a-z0-9._-]{0,63}$`. -/
def keyIsValid : Text → Bool
  | [] => false
  | first :: rest =>
    decide (byteLength (first :: rest) ≤ 64) && (first.isLower || first.isDigit) &&
      rest.all fun c => c.isLower || c.isDigit || c == '.' || c == '_' || c == '-'

def keyErrors (payload : Json N) : List Text :=
  match payload.get "key".toList with
  | some (.string key) =>
    if keyIsValid key then checkStringCap "key".toList key
    else ["key: must match ^[a-z0-9][a-z0-9._-]\x7b0,63\x7d$".toList]
  | _ => ["key: required string matching ^[a-z0-9][a-z0-9._-]\x7b0,63\x7d$".toList]

def requiredEnum (payload : Json N) (field : Text) (allowed : List Text) : List Text :=
  if (strAt payload field).any (· ∈ allowed) then []
  else [field ++ ": required; must be one of ".toList ++
    joinTexts " | " (allowed.map fun value => '"' :: value ++ ['"'])]

def validateDeclaredBy (payload : Json N) : List Text :=
  requiredEnum payload "declared_by".toList ["spec".toList, "user".toList]

/-- The errors of a payload with a tombstone. -/
def tombstoneErrors (payload : Json N) : List Text :=
  ((taskFields.filter (· ∉ tombstoneFields)).filter fun field => (payload.get field).isSome).map
      (· ++ ": must be absent from a tombstone task".toList) ++
    validateDeclaredBy payload ++
    requiredEnum payload "tombstoned_by".toList ["spec".toList, "user".toList] ++
    match payload.get "tombstone".toList with
    | some (.object members) =>
      rejectUnknown (.object members) ["reason".toList] ++
        match (Json.object members).get "reason".toList with
        | none | some .null => []
        | some (.string reason) => checkStringCap "tombstone.reason".toList reason
        | some _ => ["tombstone.reason: must be a string or null".toList]
    | _ => ["tombstone: must be an object".toList]

/-- The rules of a live task past its key.  They always ask for the author. -/
structure LiveTaskSchema (N : Type) where
  errors : Json N → List Text
  declared : ∀ payload, errors payload = [] → (strAt payload "declared_by".toList).isSome

def validateTask (schema : LiveTaskSchema N) (payload : Json N) : List Text :=
  rejectUnknown payload taskFields ++ keyErrors payload ++
    if hasTombstone payload then tombstoneErrors payload else schema.errors payload

/-! ## Diagnostics -/

inductive TaskDiagnosticCode where
  | invalidDeclaration
  | duplicateKey
  | dependencyCycle
  | tombstoneBlocksRedeclaration
  | neigeExecutionRetired
deriving DecidableEq

/-- A diagnostic of a task block; its arguments are texts, in key order. -/
structure Diagnostic where
  code : TaskDiagnosticCode
  path : Text
  messageArgs : List (Text × Text)
  relatedBlockIds : List Text
  action : Option Text
  message : Text
deriving DecidableEq

def arg (args : List (Text × Text)) (key : String) : Text :=
  ((args.find? (·.1 = key.toList)).map (·.2)).getD []

def renderDiagnosticMessage (code : TaskDiagnosticCode) (args : List (Text × Text)) : Text :=
  match code with
  | .invalidDeclaration => arg args "detail"
  | .duplicateKey => "duplicate key `".toList ++ arg args "key" ++ "`".toList
  | .dependencyCycle => "dependency cycle: ".toList ++ arg args "keys"
  | .tombstoneBlocksRedeclaration =>
    "task key `".toList ++ arg args "key" ++ "` has an uncleared tombstone".toList
  | .neigeExecutionRetired =>
    ("isolated execution (context.neige_execution) is retired; this task is history and never " ++
      "runs").toList

def Diagnostic.coded (code : TaskDiagnosticCode) (path : String) (messageArgs : List (Text × Text))
    (relatedBlockIds : List Text) (action : Option String) : Diagnostic where
  code := code
  path := path.toList
  messageArgs := messageArgs
  relatedBlockIds := relatedBlockIds
  action := action.map String.toList
  message := renderDiagnosticMessage code messageArgs

/-- A declaration the schema refuses. -/
def Diagnostic.invalid (error : Text) : Diagnostic :=
  .coded .invalidDeclaration "payload" [("detail".toList, error)] [] none

def Diagnostic.retired : Diagnostic := .coded .neigeExecutionRetired "payload" [] [] none

/-! ## Reading the declarations -/

structure TaskDeclaration where
  blockIndex : Nat
  blockId : Text
  key : Text
  dependsOn : List Text
  declaredBy : Text
  tombstonedBy : Option Text
  tombstone : Bool
deriving DecidableEq

/-- The texts of the list a payload has under `depends_on`. -/
def dependsOnOf (payload : Json N) : List Text :=
  match payload.get "depends_on".toList with
  | some (.array items) => items.filterMap Json.asStr
  | _ => []

/-- Whether a live payload still selects the retired execution. -/
def selectsRetired (payload : Json N) : Bool :=
  !hasTombstone payload &&
    (payload.get "context".toList).any fun context =>
      (context.get "neige_execution".toList).isSome

/-- The declaration a readable payload makes, after the diagnostics found so far.  The reading
fails where the source would panic: on a payload that is no object, or has no key or author. -/
def declareTask (index : Nat) (block : ReportBlock N) (payload : Json N)
    (found : List Diagnostic) : Option (List Diagnostic × Option TaskDeclaration) := do
  guard payload.isObject
  let key ← strAt payload "key".toList
  let declaredBy ← strAt payload "declared_by".toList
  return (found ++ (if selectsRetired payload then [.retired] else []),
    some
      { blockIndex := index
        blockId := block.id
        key := key
        dependsOn := dependsOnOf payload
        declaredBy := declaredBy
        tombstonedBy := strAt payload "tombstoned_by".toList
        tombstone := hasTombstone payload })

/-- A block gives its own diagnostics, and a declaration if it is a readable task block. -/
def readTaskBlock (schema : LiveTaskSchema N) (index : Nat) (block : ReportBlock N) :
    Option (List Diagnostic × Option TaskDeclaration) :=
  if block.kind = kindTask then
    let payload := normalizeLegacyTerminalCommand block.payload
    match validatePayload (fun _ payload => validateTask schema payload) kindTask payload with
    | .error error =>
      -- a refused payload still declares its key when it is readable
      if (strAt payload "key".toList).isNone ∨ (strAt payload "declared_by".toList).isNone then
        some ([.invalid error], none)
      else declareTask index block payload [.invalid error]
    | .ok () => declareTask index block payload []
  else some ([], none)

def readTaskBlocks (schema : LiveTaskSchema N) :
    Nat → List (ReportBlock N) → Option (List (List Diagnostic × Option TaskDeclaration))
  | _, [] => some []
  | index, block :: rest => do
    let first ← readTaskBlock schema index block
    let others ← readTaskBlocks schema (index + 1) rest
    return first :: others

/-! ## Checking them together -/

/-- The loop of `dupKeys`: a key seen before is emitted once. -/
def dupKeysFrom : List Text → List Text → List Text → List Text
  | [], _, _ => []
  | key :: rest, seen, emitted =>
    if key ∈ seen then
      if key ∈ emitted then dupKeysFrom rest seen emitted
      else key :: dupKeysFrom rest seen (key :: emitted)
    else dupKeysFrom rest (key :: seen) emitted

/-- The keys declared more than once. -/
def dupKeys (declarations : List TaskDeclaration) : List Text :=
  dupKeysFrom (declarations.map TaskDeclaration.key) [] []

/-- The keys a tombstone holds. -/
def tombstonedKeys (declarations : List TaskDeclaration) : List Text :=
  (ExtTreeSet.ofList ((declarations.filter (·.tombstone)).map TaskDeclaration.key)).toList

def taskBlockIsLive (block : ReportBlock N) : Bool :=
  block.kind = kindTask && !hasTombstone block.payload

/-- What the live declarations depend on; the last declaration of a key counts. -/
def declarationGraph (declarations : List TaskDeclaration) : ExtTreeMap Text (List Text) :=
  ExtTreeMap.ofList
    ((declarations.filter (!·.tombstone)).map fun declared => (declared.key, declared.dependsOn))

/-- A map from keys to dependencies as a graph. -/
def digraph (graph : ExtTreeMap Text (List Text)) : Library.Digraph Text where
  keys := graph.keys
  next key := graph.getD key []
  distinct := ExtTreeMap.nodup_keys
  inside key outside := by
    rw [ExtTreeMap.mem_keys] at outside
    exact ExtTreeMap.getD_eq_fallback outside

def findCycle (graph : ExtTreeMap Text (List Text)) : Option (List Text) :=
  (digraph graph).findCycle

def cyclicComponents (graph : ExtTreeMap Text (List Text)) :
    Option (List (List Text × List Text)) :=
  (digraph graph).cyclicComponents

/-- A diagnostic pushed on the blocks it applies to. -/
def pushDiagnostic (blocks : List (ReportBlock N)) (applies : ReportBlock N → Bool)
    (diagnostic : Diagnostic) (found : List (List Diagnostic)) : List (List Diagnostic) :=
  List.zipWith (fun block found => if applies block then found ++ [diagnostic] else found) blocks
    found

/-- One diagnostic for each item, each pushed on the blocks its item applies to. -/
def pushEach {A : Type} (blocks : List (ReportBlock N)) (applies : A → ReportBlock N → Bool)
    (diagnostic : A → Diagnostic) (items : List A) (found : List (List Diagnostic)) :
    List (List Diagnostic) :=
  items.foldl (fun found item => pushDiagnostic blocks (applies item) (diagnostic item) found) found

/-- A task block whose key is among `keys`. -/
def hasKeyIn (keys : List Text) (block : ReportBlock N) : Bool :=
  block.kind = kindTask && (strAt block.payload "key".toList).any (· ∈ keys)

/-- A live task block whose key a tombstone holds. -/
def redeclares (key : Text) (block : ReportBlock N) : Bool :=
  taskBlockIsLive block && strAt block.payload "key".toList = some key

def blockIds (blocks : List (ReportBlock N)) (applies : ReportBlock N → Bool) : List Text :=
  (blocks.filter applies).map ReportBlock.id

def duplicateDiagnostic (blocks : List (ReportBlock N)) (key : Text) : Diagnostic :=
  .coded .duplicateKey "key" [("key".toList, key)] (blockIds blocks (hasKeyIn [key]))
    (some "edit_task_key")

/-- The author of a tombstone that names none. -/
def plannerDeclarationAuthor : Text := "spec".toList

def tombstoneAuthor (declarations : List TaskDeclaration) (key : Text) : Text :=
  ((declarations.find? fun declared => declared.key = key && declared.tombstone).bind
    TaskDeclaration.tombstonedBy).getD plannerDeclarationAuthor

def tombstoneDiagnostic (blocks : List (ReportBlock N)) (declarations : List TaskDeclaration)
    (key : Text) : Diagnostic :=
  .coded .tombstoneBlocksRedeclaration "key"
    [("key".toList, key), ("tombstoned_by".toList, tombstoneAuthor declarations key)]
    (blockIds blocks fun block => hasKeyIn [key] block && hasTombstone block.payload)
    (some "clear_tombstone")

def cycleDiagnostic (blocks : List (ReportBlock N)) (component : List Text × List Text) :
    Diagnostic :=
  .coded .dependencyCycle "depends_on" [("keys".toList, joinTexts " -> " component.2)]
    (blockIds blocks (hasKeyIn component.1)) (some "edit_dependencies")

/-- The declarations of a report, and the diagnostics of each of its blocks. -/
def projectTaskDeclarations (schema : LiveTaskSchema N) (blocks : List (ReportBlock N)) :
    Option (List TaskDeclaration × List (List Diagnostic)) := do
  let read ← readTaskBlocks schema 0 blocks
  let declarations := read.filterMap (·.2)
  let tombstoned := tombstonedKeys declarations
  let diagnostics := pushEach blocks (fun key => hasKeyIn [key]) (duplicateDiagnostic blocks)
    ((dupKeys declarations).filter (· ∉ tombstoned)) (read.map (·.1))
  let diagnostics := pushEach blocks redeclares (tombstoneDiagnostic blocks declarations)
    tombstoned diagnostics
  let components ← cyclicComponents (declarationGraph declarations)
  let diagnostics := pushEach blocks (fun component => hasKeyIn component.1)
    (cycleDiagnostic blocks) components diagnostics
  return (declarations, diagnostics)

end NeigeCalm.Report
