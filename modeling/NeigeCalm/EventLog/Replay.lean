import NeigeCalm.Library.AppendLog
import NeigeCalm.Library.Lines
import NeigeCalm.Library.Machine

/-!
# Replay and live events of one subscriber

A connection subscribes to the bus first and then asks for the events above a cursor.  The replay is
built from separate reads of the log; commits, late broadcasts and prunes happen between any two of
them, while the bus buffers.  The replay ends with a stamp, below which live events are duplicates.
-/

namespace NeigeCalm.EventLog.Replay

open Library

variable {E : Type}

/-! ## The log -/

/-- A committed event; `readable` says that its stored row still decodes to the event. -/
structure Entry (E : Type) where
  id : Int
  event : E
  readable : Bool
deriving DecidableEq

/-- The largest 64-bit integer. -/
def maxId : Int := 2 ^ 63 - 1

abbrev Log (E : Type) := AppendLog (Entry E) Entry.id maxId

namespace Log

def empty : Log E where
  rows := []
  last := 0
  mark := none
  ordered := .nil
  within := nofun
  marked := nofun
  started := le_refl _
  fits := by decide

def eventsEarliestId (log : Log E) : Option Int := log.rows.head?.map Entry.id

def eventsLatestId (log : Log E) : Option Int := log.rows.getLast?.map Entry.id

def eventsPruneWatermark (log : Log E) : Int := log.mark.getD 0

/-- The first rows above an identifier; a negative limit admits none. -/
def rowsSince (log : Log E) (since limit : Int) : List (Entry E) :=
  (log.rows.filter (since < ·.id)).take limit.toNat

/-- How many rows there are above an identifier, up to a limit, and the largest of them. -/
def eventsRawWindowSince (log : Log E) (since limit : Int) : Int × Option Int :=
  ((log.rowsSince since limit).length, (log.rowsSince since limit).getLast?.map Entry.id)

/-- Rows that no longer decode are skipped. -/
def eventsSince (log : Log E) (since limit : Int) : List (Entry E) :=
  (log.rowsSince since limit).filter (·.readable)

end Log

/-- How events are read. -/
structure Codec (E : Type) where
  topics : E → List Text
  /-- An overlay whose schema version is beyond this binary. -/
  skip : E → Bool

/-- The subscriber is sent the event. -/
def Codec.wanted (codec : Codec E) (subs : List Text) (event : E) : Bool :=
  !codec.skip event && (codec.topics event).any subs.contains

/-! ## Pure decisions of the replay -/

inductive CapRoute where
  | stream
  /-- Over the cap on the cold first pass. -/
  | promoteAnchor
  /-- Over the cap with a positive anchor. -/
  | snapshot
deriving DecidableEq

def replayCapRoute (anchor rawPending cap : Int) (anchorPromoted : Bool) : CapRoute :=
  if rawPending ≤ cap then .stream
  else if 0 < anchor ∨ anchorPromoted then .snapshot
  else .promoteAnchor

def watermarkInvalidatesWindow (since watermark : Int) : Bool := 0 < since && since < watermark

def replayCompleteStamp (serverTip accountedEnd pruneWatermark : Int) : Int :=
  max (min serverTip accountedEnd) pruneWatermark

def saturatingSucc (n : Int) : Int := min (n + 1) maxId

/-! ## The connection -/

inductive Frame (E : Type) where
  | replay (entry : Entry E)
  | live (entry : Entry E)
  | replayComplete (stamp : Int)
  | snapshotRequired (earliest : Int)
deriving DecidableEq

structure Request where
  subs : List Text
  since : Int

/-- The window that a replay streams. -/
structure Window (E : Type) where
  request : Request
  earliest : Option Int
  anchor : Int
  promoted : Bool
  rawMax : Option Int
  rows : List (Entry E)
  /-- The log at the fetch; nothing of the connection reads it. -/
  fetched : Log E

inductive Phase (E : Type) where
  | unsubscribed
  | waiting
  | readEarliest (request : Request)
  | readWatermark (request : Request) (earliest : Option Int)
  | probe (request : Request) (earliest : Option Int) (anchor : Int) (promoted : Bool)
  | promote (request : Request) (earliest : Option Int)
  | fetch (request : Request) (earliest : Option Int) (anchor : Int) (promoted : Bool)
      (rawMax : Option Int)
  | recheck (window : Window E)
  | send (window : Window E) (left : List (Entry E)) (lastId : Int)
  | readTip (window : Window E) (lastId : Int)
  | complete (window : Window E) (lastId serverTip : Int)
  | following (window : Window E) (stamp : Int)
  | closed

structure System (E : Type) where
  log : Log E
  /-- Every event that was ever committed. -/
  history : List (Entry E)
  /-- Committed and not yet broadcast. -/
  unsent : List (Entry E)
  /-- Broadcast and not yet received. -/
  buffer : List (Entry E)
  /-- The largest identifier given out before the connection subscribed. -/
  subscribedAt : Option Int
  phase : Phase E

inductive Act (E : Type) where
  | commit (gap : Nat) (event : E) (readable : Bool)
  | broadcast (entry : Entry E)
  | prune (gone : Entry E → Bool)
  | subscribe
  | message (request : Request)
  /-- The connection goes on: the next read or frame of the replay, or the next live event. -/
  | advance

namespace System

def init : System E where
  log := Log.empty
  history := []
  unsent := []
  buffer := []
  subscribedAt := none
  phase := .unsubscribed

variable (codec : Codec E) (cap : Int)

/-- The largest identifier that the replay accounts for. -/
def accountedEnd (window : Window E) (lastId : Int) : Int :=
  max lastId (window.rawMax.getD window.anchor)

/-- The start of a replay; a cold cursor is always honored. -/
def beginReplay (request : Request) : Phase E :=
  if 0 < request.since then .readEarliest request else .probe request none request.since false

def requireSnapshot (s : System E) (earliest : Int) : System E × List (Frame E) :=
  ({ s with phase := .closed }, [.snapshotRequired earliest])

/-- Where the replay reads, one step is one read; where it sends, one step is one frame. -/
def advance (s : System E) : System E × List (Frame E) :=
  match s.phase with
  | .unsubscribed | .closed => (s, [])
  -- without subscriptions no topic matches
  | .waiting => ({ s with buffer := s.buffer.tail }, [])
  | .readEarliest request =>
    ({ s with phase := .readWatermark request (Log.eventsEarliestId s.log) }, [])
  | .readWatermark request earliest =>
    if earliest.any (fun first => request.since < first - 1) ∨
        request.since < Log.eventsPruneWatermark s.log then
      requireSnapshot s (earliest.getD (Log.eventsPruneWatermark s.log))
    else ({ s with phase := .probe request earliest request.since false }, [])
  | .probe request earliest anchor promoted =>
    let window := Log.eventsRawWindowSince s.log anchor (saturatingSucc cap)
    match replayCapRoute anchor window.1 cap promoted with
    | .stream => ({ s with phase := .fetch request earliest anchor promoted window.2 }, [])
    | .snapshot => requireSnapshot s (earliest.getD anchor)
    | .promoteAnchor => ({ s with phase := .promote request earliest }, [])
  | .promote request earliest =>
    ({ s with phase := .probe request earliest ((Log.eventsLatestId s.log).getD 0) true }, [])
  | .fetch request earliest anchor promoted rawMax =>
    ({ s with phase := .recheck { request, earliest, anchor, promoted, rawMax, fetched := s.log
                                  rows := Log.eventsSince s.log anchor cap } }, [])
  | .recheck window =>
    if watermarkInvalidatesWindow window.request.since (Log.eventsPruneWatermark s.log) then
      requireSnapshot s (window.earliest.getD (Log.eventsPruneWatermark s.log))
    else ({ s with phase := .send window window.rows window.anchor }, [])
  | .send window [] lastId => ({ s with phase := .readTip window lastId }, [])
  -- what is not wanted still advances the cursor
  | .send window (entry :: left) _ =>
    ({ s with phase := .send window left entry.id },
      if codec.wanted window.request.subs entry.event then [.replay entry] else [])
  | .readTip window lastId =>
    ({ s with phase := .complete window lastId ((Log.eventsLatestId s.log).getD 0) }, [])
  | .complete window lastId serverTip =>
    let stamp := replayCompleteStamp serverTip (accountedEnd window lastId)
      (Log.eventsPruneWatermark s.log)
    ({ s with phase := .following window stamp }, [.replayComplete stamp])
  | .following window stamp => match s.buffer with
    | [] => (s, [])
    | entry :: rest =>
      ({ s with buffer := rest },
        if entry.id ≠ 0 ∧ entry.id ≤ stamp then []
        else if codec.wanted window.request.subs entry.event then [.live entry]
        else [])

/-- What a prune deletes: once there is a subscription, only rows that were committed before it. -/
def prunable (s : System E) (gone : Entry E → Bool) (entry : Entry E) : Bool :=
  gone entry && s.subscribedAt.all (entry.id ≤ ·)

def prune (s : System E) (gone : Entry E → Bool) : System E :=
  { s with log := s.log.delete (prunable s gone) }

def commit (s : System E) (entry : Entry E) (fresh : s.log.last < entry.id)
    (room : entry.id ≤ maxId) : System E :=
  { s with
    log := s.log.append entry fresh room
    history := s.history ++ [entry]
    unsent := s.unsent ++ [entry] }

variable [DecidableEq E]

/-- A bus without a subscriber drops what is broadcast. -/
def broadcast (s : System E) (entry : Entry E) : System E :=
  { s with
    unsent := s.unsent.erase entry
    buffer := if s.subscribedAt.isSome then s.buffer ++ [entry] else s.buffer }

def react (s : System E) : Act E → System E × List (Frame E)
  | .commit gap event readable =>
    if room : s.log.last + gap + 1 ≤ maxId then
      (s.commit { id := s.log.last + gap + 1, event, readable } (Int.lt_add_one_of_le (by omega))
        room, [])
    else (s, [])
  | .broadcast entry => (if entry ∈ s.unsent then s.broadcast entry else s, [])
  | .prune gone => (s.prune gone, [])
  | .subscribe => match s.phase with
    | .unsubscribed => ({ s with subscribedAt := some s.log.last, phase := .waiting }, [])
    | _ => (s, [])
  | .message request => match s.phase with
    | .waiting => ({ s with phase := beginReplay request }, [])
    | _ => (s, [])
  | .advance => s.advance codec cap

end System

end NeigeCalm.EventLog.Replay
