import NeigeCalm.Library.AppendLog
import NeigeCalm.Library.Fallible
import NeigeCalm.Library.Lines
import NeigeCalm.Library.Machine

/-!
# Retention of the event log

Old rows of a few kinds are pruned.  Of the `overlay.set` rows the latest of each overlay must stay,
so a pass observes the latest rows in ranges of identifiers, outside the writer, and collects the
older rows as candidates.  Each delete transaction then checks that no overlay was appended beyond
the observed frontier and that the rows which it relies on are still there.

A pass is a machine that takes one read or one transaction at a time; appends and other passes act
on the log between any two of them.
-/

namespace NeigeCalm.EventLog

open Library

/-! ## The log -/

/-- A row of `events`. -/
structure Row where
  id : Int
  kind : Text
  /-- Milliseconds since the epoch. -/
  atMs : Int
  payload : Text
deriving DecidableEq

/-- `events` with its watermark; identifiers are 64-bit and given out by `AUTOINCREMENT`. -/
abbrev Log := AppendLog Row Row.id (2 ^ 63 - 1)

/-- Commits one event; `gap` identifiers are skipped.  An exhausted table refuses. -/
def Log.commit (log : Log) (gap : Nat) (kind : Text) (atMs : Int) (payload : Text) : Log :=
  if room : log.last + gap + 1 ≤ 2 ^ 63 - 1 then
    AppendLog.append log { id := log.last + gap + 1, kind, atMs, payload }
      (Int.lt_add_one_of_le (by omega)) room
  else log

theorem Log.later_commit (log : Log) (gap : Nat) (kind : Text) (atMs : Int) (payload : Text) :
    AppendLog.Later log (log.commit gap kind atMs payload) := by
  unfold commit
  split
  · exact AppendLog.later_append ..
  · exact .refl _

def overlaySet : Text := "overlay.set".toList

/-- Exact kinds; everything else is permanent. -/
def eventsPruneKinds : List Text :=
  ["claude.hook".toList, "codex.hook".toList, "harness.phase.changed".toList,
    "harness.item.added".toList, "harness.queue.changed".toList, overlaySet]

/-! ## The key of an overlay -/

/-- A value of `json_extract`. -/
inductive SqlValue where
  | null
  | integer (n : Int)
  | real (bits : BitVec 64)
  | text (t : Text)
deriving DecidableEq

/-- The value as a nullable text column; a number does not decode. -/
def SqlValue.decode : SqlValue → Option (Option Text)
  | .null => some none
  | .text t => some (some t)
  | .integer _ | .real _ => none

/-- Plugin, entity kind, entity id and overlay kind. -/
structure SqlKey where
  plugin : SqlValue
  entityKind : SqlValue
  entityId : SqlValue
  kind : SqlValue
deriving DecidableEq

structure Quad where
  plugin : Option Text
  entityKind : Option Text
  entityId : Option Text
  kind : Option Text
deriving DecidableEq

def SqlKey.quad (key : SqlKey) : Option Quad := do
  let plugin ← key.plugin.decode
  let entityKind ← key.entityKind.decode
  let entityId ← key.entityId.decode
  let kind ← key.kind.decode
  return { plugin, entityKind, entityId, kind }

/-- How payloads are read. -/
structure OverlayCodec where
  /-- The extracted key of a payload that is valid JSON. -/
  key : Text → Option SqlKey
  /-- The payload decodes as an overlay whose schema version this binary supports. -/
  supported : Text → Bool

variable (codec : OverlayCodec)

/-! ## The reads -/

def Row.isOverlay (row : Row) : Bool := row.kind = overlaySet

/-- The largest identifier of an overlay row, malformed ones included. -/
def frontier (log : Log) : Int := ((log.newest Row.isOverlay).map Row.id).getD 0

/-- The overlay rows with a key and an identifier in a range. -/
def keyedRows (log : Log) (lower upper : Int) : List Row :=
  log.rows.filter fun row =>
    row.isOverlay && decide (lower < row.id) && decide (row.id ≤ upper) &&
      (codec.key row.payload).isSome

/-- Of each key the row with the largest identifier in a range. -/
def latestRows (log : Log) (lower upper : Int) : List Row :=
  (keyedRows codec log lower upper).filter fun row =>
    (keyedRows codec log lower upper).all fun other =>
      codec.key other.payload ≠ codec.key row.payload ∨ other.id ≤ row.id

def scanPageSize : Nat := 256

def candidateRows (log : Log) (cursor passFrontier horizon : Int) : List Row :=
  ((keyedRows codec log cursor passFrontier).filter (·.atMs < horizon)).take scanPageSize

/-- The rows with their keys as text; one that does not decode fails the read. -/
def decodeRows (rows : List Row) : Option (List (Row × Quad)) :=
  rows.mapM fun row => ((codec.key row.payload).bind SqlKey.quad).map (row, ·)

/-! ## Observations -/

structure Latest where
  id : Int
  payload : Text
  supported : Bool
deriving DecidableEq

structure Candidate where
  id : Int
  quad : Quad
deriving DecidableEq

structure Observation where
  frontier : Int
  latest : Quad → Option Latest

namespace Observation

def empty : Observation := ⟨0, fun _ => none⟩

/-- Takes over a row that is newer than what is known of its key. -/
def record (latest : Quad → Option Latest) (entry : Row × Quad) : Quad → Option Latest :=
  if (latest entry.2).all (·.id < entry.1.id) then
    Function.update latest entry.2
      (some ⟨entry.1.id, entry.1.payload, codec.supported entry.1.payload⟩)
  else latest

def observeRange (observed : Observation) (log : Log) (upper : Int) : Option Observation :=
  (decodeRows codec (latestRows codec log observed.frontier upper)).map fun rows =>
    { frontier := upper, latest := rows.foldl (record codec) observed.latest }

/-- The latest row that makes a candidate obsolete. -/
def witness (observed : Observation) (candidate : Candidate) : Option Latest :=
  (observed.latest candidate.quad).filter fun latest =>
    latest.supported && decide (candidate.id < latest.id)

end Observation

/-! ## A pass -/

/-- The loop of a pass over the candidates. -/
structure Scan where
  observed : Observation
  passFrontier : Int
  cursor : Int
  pending : List Candidate

/-- A batch that is being flushed; the last one ends the scan. -/
structure Flush where
  candidates : List Candidate
  attempts : Nat
  isLast : Bool

/-- What a flush asks a transaction to do: the rows to delete and those it relies on. -/
structure Batch where
  ids : List Int
  witnesses : List (Int × Text)

def validationAttempts : Nat := 3

inductive Phase where
  /-- The next kind is taken up. -/
  | next
  /-- Batches of a kind without a rule of its own. -/
  | plain (kind : Text)
  | readFrontier
  | observe (upper : Int)
  | scan (scan : Scan)
  /-- The frontier is read again before a batch. -/
  | refresh (scan : Scan) (flush : Flush)
  | observeTail (scan : Scan) (flush : Flush) (upper : Int)
  | write (scan : Scan) (flush : Flush) (batch : Batch)
  | finished

structure Pass where
  horizon : Int
  batch : Nat
  /-- The kinds that are left. -/
  kinds : List Text
  phase : Phase

/-- What a committed transaction did. -/
structure Commit where
  horizon : Int
  before : Log
  gone : Row → Bool

namespace Commit

def after (commit : Commit) : Log := commit.before.delete commit.gone

def removed (commit : Commit) : List Row := commit.before.rows.filter commit.gone

end Commit

/-- The order in which an unordered query returns its rows. -/
structure Reorder where
  apply : List Row → List Row
  perm : ∀ rows, (apply rows).Perm rows

namespace Pass

def init (horizon batch : Int) : Pass where
  horizon := horizon
  batch := (max batch 1).toNat
  kinds := eventsPruneKinds
  phase := .next

/-- Adds a candidate with its witness; of each witness there is one. -/
def collectOne (observed : Observation) (batch : Batch) (candidate : Candidate) : Batch :=
  match observed.witness candidate with
  | none => batch
  | some latest =>
    { ids := batch.ids ++ [candidate.id]
      witnesses := (latest.id, latest.payload) :: batch.witnesses.filter (·.1 ≠ latest.id) }

def collect (observed : Observation) (candidates : List Candidate) : Batch :=
  candidates.foldl (collectOne observed) ⟨[], []⟩

/-- Full batches are flushed before more candidates are read. -/
def drain (size : Nat) (scan : Scan) : Phase :=
  if size ≤ scan.pending.length then
    .refresh { scan with pending := scan.pending.drop size }
      ⟨scan.pending.take size, validationAttempts, false⟩
  else .scan scan

/-- After a flush that did not give up. -/
def flushed (size : Nat) (scan : Scan) (flush : Flush) : Phase :=
  if flush.isLast then .next else drain size scan

def prepare (size : Nat) (scan : Scan) (flush : Flush) : Phase :=
  let batch := collect scan.observed flush.candidates
  if batch.ids = [] then flushed size scan flush else .write scan flush batch

/-- The stored witnesses of a batch. -/
def current (log : Log) (batch : Batch) : List Row :=
  log.rows.filter fun row => row.isOverlay && (batch.witnesses.map Prod.fst).contains row.id

/-- The stored witnesses are the ones relied on. -/
def unchanged (log : Log) (batch : Batch) : Bool :=
  (current log batch).length = batch.witnesses.length &&
    (current log batch).all fun row => batch.witnesses.lookup row.id == some row.payload

def step (pass : Pass) (order : Reorder) (log : Log) : Pass × Option Commit :=
  let goto (phase : Phase) : Pass × Option Commit := ({ pass with phase }, none)
  match pass.phase with
  | .finished => goto .finished
  | .next => match pass.kinds with
    | [] => goto .finished
    | kind :: rest =>
      ({ pass with
        kinds := rest, phase := if kind = overlaySet then .readFrontier else .plain kind },
        none)
  | .plain kind =>
    let chosen := (order.apply (log.rows.filter fun row =>
      decide (row.kind = kind) && decide (row.atMs < pass.horizon))).take pass.batch
    ({ pass with phase := if chosen.length < pass.batch then .next else .plain kind },
      some ⟨pass.horizon, log, fun row => chosen.contains row⟩)
  | .readFrontier => goto (.observe (frontier log))
  | .observe upper => match Observation.empty.observeRange codec log upper with
    | none => goto .next
    | some observed => goto (.scan ⟨observed, observed.frontier, 0, []⟩)
  | .scan scan =>
    let rows := candidateRows codec log scan.cursor scan.passFrontier pass.horizon
    match decodeRows codec rows, rows.getLast? with
    | none, _ => goto .next
    | some _, none =>
      if scan.pending = [] then goto .next
      else goto (.refresh scan ⟨scan.pending, validationAttempts, true⟩)
    | some entries, some last =>
      let found := entries.map fun entry => ⟨entry.1.id, entry.2⟩
      goto (drain pass.batch { scan with
        cursor := last.id
        pending := scan.pending ++
          found.filter fun candidate => (scan.observed.witness candidate).isSome })
  | .refresh scan flush =>
    if flush.attempts = 0 then goto .next
    else if scan.observed.frontier < frontier log then
      goto (.observeTail scan flush (frontier log))
    else goto (prepare pass.batch scan flush)
  | .observeTail scan flush upper => match scan.observed.observeRange codec log upper with
    | none => goto .next
    | some observed => goto (prepare pass.batch { scan with observed } flush)
  | .write scan flush batch =>
    if scan.observed.frontier < frontier log then
      goto (.refresh scan { flush with attempts := flush.attempts - 1 })
    else if ¬unchanged log batch then goto .next
    else
      ({ pass with phase := flushed pass.batch scan flush },
        some ⟨pass.horizon, log, fun row => row.isOverlay && decide (row.atMs < pass.horizon) &&
          batch.ids.contains row.id⟩)

end Pass

/-! ## Passes and appends together -/

structure System where
  log : Log
  passes : Nat → Option Pass

inductive Act where
  | append (gap : Nat) (kind : Text) (atMs : Int) (payload : Text)
  | start (slot : Nat) (horizon batch : Int)
  | step (slot : Nat) (order : Reorder)
  /-- A step fails; the pass goes on with its next kind. -/
  | fail (slot : Nat)
  /-- A pass is dropped. -/
  | stop (slot : Nat)

namespace System

def start (log : Log) : System := ⟨log, fun _ => none⟩

def react (s : System) : Act → System × List Commit
  | .append gap kind atMs payload =>
    ({ s with log := Log.commit s.log gap kind atMs payload }, [])
  | .start slot horizon batch =>
    ({ s with passes := Function.update s.passes slot (some (Pass.init horizon batch)) }, [])
  | .step slot order => match s.passes slot with
    | none => (s, [])
    | some pass =>
      let (next, committed) := pass.step codec order s.log
      ({ log := committed.elim s.log Commit.after
         passes := Function.update s.passes slot (some next) }, committed.toList)
  | .fail slot => match s.passes slot with
    | none => (s, [])
    | some pass =>
      ({ s with passes := Function.update s.passes slot (some { pass with phase := .next }) }, [])
  | .stop slot => ({ s with passes := Function.update s.passes slot none }, [])

end System

end NeigeCalm.EventLog
