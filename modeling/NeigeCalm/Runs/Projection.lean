import NeigeCalm.Library.Json
import NeigeCalm.Library.OrderedMap

/-!
# The runs of a track

A run is projected from the events that name its key, the worker card that carries the key and
the canceled execution of that id.  There are two projections.  `projectRuns` reads the whole
log into one map for each kind of record and lists every run; `projectRunByKey` reads the rows
of one key.  This module has both, and says exactly when they agree.
-/

namespace NeigeCalm.Runs

open Library List Std OrderedMap

variable {N : Type}

/-! ## Records -/

inductive EventScope where
  | system
  | area
  | track
  | card
deriving DecidableEq

inductive ActorId where
  | user
  | kernel
  | kernelDispatcher
  | plugin (name : Text)
  | agent (id : Text)
deriving DecidableEq

/-- The events the runs views read. -/
inductive RunEvent where
  | codexWorkerRequested
  | terminalWorkerRequested
  | taskDispatched (kind : Text)
  | taskCompleted
  | taskFailed
deriving DecidableEq

/-- A row of the log that is one of these events. -/
structure TrackEvent (N : Type) where
  id : Int
  atMs : Int
  actor : ActorId
  scope : EventScope
  event : RunEvent
  idempotencyKey : Text
  payload : Json N

structure Card (N : Type) where
  id : Text
  kind : Text
  payload : Json N
  title : Option Text
  createdAt : Int
  updatedAt : Int

structure CardProjection (N : Type) where
  card : Card N
  role : Text

structure CanceledTaskAttempt where
  attemptId : Text
  key : Text
  finishedAtMs : Option Int
deriving DecidableEq

/-- What the projections read of one track: its card rows in `sort, id` order, the ids its
`card.added` events announced, its run events and its canceled executions. -/
structure Database (N : Type) where
  cards : List (CardProjection N)
  announced : List Text
  events : List (TrackEvent N)
  canceled : List CanceledTaskAttempt
  distinctCards : (cards.map fun row => row.card.id).Nodup
  distinctCanceled : (canceled.map CanceledTaskAttempt.attemptId).Nodup

inductive CardVisibility where
  | announcedOrInherited (inherited : List Text)
  | allRows

def CardVisibility.includes (visibility : CardVisibility) (cardId : Text) (announced : Bool) :
    Bool :=
  match visibility with
  | .announcedOrInherited inherited => announced || inherited.contains cardId
  | .allRows => true

def Database.isVisible (db : Database N) (visibility : CardVisibility)
    (row : CardProjection N) : Bool :=
  visibility.includes row.card.id (db.announced.contains row.card.id)

def cardsForTrack (db : Database N) (visibility : CardVisibility) : List (CardProjection N) :=
  db.cards.filter (db.isVisible visibility)

/-! ## What a run shows -/

inductive RunKind where
  | codex
  | claude
  | compact
  | terminal
  | unknown
deriving DecidableEq

def runKindStatic (kind : Text) : RunKind :=
  if kind = "codex".toList then .codex
  else if kind = "claude".toList then .claude
  else if kind = "compact".toList then .compact
  else if kind = "terminal".toList then .terminal
  else .unknown

inductive EventTag where
  | codexWorkerRequested
  | terminalWorkerRequested
  | taskDispatched
  | taskCompleted
  | taskFailed
deriving DecidableEq

structure RunEventProjection (N : Type) where
  eventId : Int
  atMs : Int
  kind : EventTag
  payload : Json N

structure RunVerdictProjection where
  status : Text
  reason : Option Text
  atMs : Int

inductive RunStatus where
  | completed
  | failed
  | canceled
  | running
  | requested
  | unknown
deriving DecidableEq

structure RunProjection (N : Type) where
  attemptId : Text
  status : RunStatus
  kind : RunKind
  requestedAt : Option Int
  finishedAt : Option Int
  workerCard : Option (Card N)
  requestedEvent : Option (RunEventProjection N)
  completedEvent : Option (RunEventProjection N)
  failedEvent : Option (RunEventProjection N)
  verdict : Option RunVerdictProjection
  verdictEvent : Option (RunEventProjection N)

def runEvent (row : TrackEvent N) (kind : EventTag) : RunEventProjection N :=
  { eventId := row.id, atMs := row.atMs, kind, payload := row.payload }

/-- Planner verdicts are track-scoped; the dispatcher's failure to spawn is not a verdict. -/
def isPlannerVerdictEvent (scope : EventScope) (actor : ActorId) : Bool :=
  scope == .track && actor != .kernelDispatcher

def verdictFromEvent (event : RunEventProjection N) : Option RunVerdictProjection :=
  match event.kind with
  | .taskCompleted => do
    let result ← event.payload.get "result".toList
    let status ← (← result.get "status".toList).asStr
    some { status
           reason := (result.get "reason".toList).bind Json.asStr
           atMs := event.atMs }
  | .taskFailed =>
    some { status := "rejected".toList
           reason := (event.payload.get "reason".toList).bind Json.asStr
           atMs := event.atMs }
  | _ => none

def idempotencyKeyFromPayload (payload : Json N) : Option Text :=
  (payload.get "idempotency_key".toList).bind Json.asStr

/-- What a query reads: a number, a truth value included, or a text. -/
inductive SqlValue where
  | null
  | number
  | text (value : Text)
deriving DecidableEq

/-- `json_extract(payload, '$.idempotency_key')`.  An array or an object is read as its
JSON text. -/
def extractedKey [JsonNumber N] (payload : Json N) : SqlValue :=
  match payload.get "idempotency_key".toList with
  | none | some .null => .null
  | some (.bool _) | some (.number _) => .number
  | some (.string key) => .text key
  | some value => .text value.compact

def isReservedRunKey (key : Text) : Bool := key == "index".toList

def runKeyIsVisible (key : Text) : Bool := !isReservedRunKey key

def runKindFromCard (card : Card N) : Option RunKind :=
  if card.kind = "codex".toList then some .codex
  else if card.kind = "terminal".toList then some .terminal
  else match (card.payload.get "role_request".toList).bind Json.asStr with
    | none => none
    | some kind =>
      if kind = "codex".toList then some .codex
      else if kind = "terminal".toList then some .terminal
      else none

/-- The worker's latest report; `true` marks a completion.  A failure wins a tie. -/
def latestFinalEvent (completed failed : Option (RunEventProjection N)) :
    Option (Bool × RunEventProjection N) :=
  match completed, failed with
  | some done, some fail =>
      if fail.eventId < done.eventId then some (true, done) else some (false, fail)
  | none, some fail => some (false, fail)
  | some done, none => some (true, done)
  | none, none => none

def runStatus (requested completed failed : Option (RunEventProjection N))
    (canceled : Option CanceledTaskAttempt) (hasWorkerCard : Bool) : RunStatus × Option Int :=
  if requested.isNone then (.unknown, none)
  else match latestFinalEvent completed failed, canceled with
    | some (true, event), _ => (.completed, some event.atMs)
    | some (false, event), _ => (.failed, some event.atMs)
    | none, some attempt => (.canceled, attempt.finishedAtMs)
    | none, none => if hasWorkerCard then (.running, none) else (.requested, none)

/-- The run of a key, from its records. -/
def assemble (key : Text) (workerCard : Option (Card N))
    (requestedEvent : Option (RunEventProjection N)) (requestedKind : Option RunKind)
    (completedEvent failedEvent verdictEvent : Option (RunEventProjection N))
    (canceled : Option CanceledTaskAttempt) : RunProjection N :=
  let (status, finishedAt) :=
    runStatus requestedEvent completedEvent failedEvent canceled workerCard.isSome
  { attemptId := key
    status
    kind := ((workerCard.bind runKindFromCard).or requestedKind).getD .unknown
    requestedAt := requestedEvent.map RunEventProjection.atMs
    finishedAt
    workerCard
    requestedEvent
    completedEvent
    failedEvent
    verdict := verdictEvent.bind verdictFromEvent
    verdictEvent }

/-! ## All runs -/

/-- The maps of `project_runs_tx` while it reads the log. -/
structure RunMaps (N : Type) where
  keys : ExtTreeSet Text
  requested : ExtTreeMap Text (RunEventProjection N)
  requestedKind : ExtTreeMap Text RunKind
  dispatched : ExtTreeMap Text (RunEventProjection N)
  dispatchedKind : ExtTreeMap Text RunKind
  completed : ExtTreeMap Text (RunEventProjection N)
  failed : ExtTreeMap Text (RunEventProjection N)
  verdict : ExtTreeMap Text (RunEventProjection N)

/-- Stores an event unless the map keeps what it has for the key. -/
def recordUnless (keeps : Int → Int → Bool)
    (map : ExtTreeMap Text (RunEventProjection N)) (key : Text)
    (event : RunEventProjection N) : ExtTreeMap Text (RunEventProjection N) :=
  match map[key]? with
  | some existing => if keeps existing.eventId event.eventId then map else map.insert key event
  | none => map.insert key event

def recordEarliest (map : ExtTreeMap Text (RunEventProjection N)) (key : Text)
    (event : RunEventProjection N) : ExtTreeMap Text (RunEventProjection N) :=
  recordUnless (fun existing new => existing ≤ new) map key event

def recordLatest (map : ExtTreeMap Text (RunEventProjection N)) (key : Text)
    (event : RunEventProjection N) : ExtTreeMap Text (RunEventProjection N) :=
  recordUnless (fun existing new => existing ≥ new) map key event

def RunMaps.record (maps : RunMaps N) (row : TrackEvent N) : RunMaps N :=
  let key := row.idempotencyKey
  match row.event with
  | .codexWorkerRequested =>
    { maps with
      keys := maps.keys.insert key
      requestedKind := maps.requestedKind.insert key .codex
      requested := recordEarliest maps.requested key (runEvent row .codexWorkerRequested) }
  | .terminalWorkerRequested =>
    { maps with
      keys := maps.keys.insert key
      requestedKind := maps.requestedKind.insert key .terminal
      requested := recordEarliest maps.requested key (runEvent row .terminalWorkerRequested) }
  | .taskDispatched kind =>
    { maps with
      keys := maps.keys.insert key
      dispatchedKind := maps.dispatchedKind.insert key (runKindStatic kind)
      dispatched := recordEarliest maps.dispatched key (runEvent row .taskDispatched) }
  -- The end of a run adds no key.
  | .taskCompleted =>
    if isPlannerVerdictEvent row.scope row.actor then
      { maps with verdict := recordLatest maps.verdict key (runEvent row .taskCompleted) }
    else { maps with completed := recordLatest maps.completed key (runEvent row .taskCompleted) }
  | .taskFailed =>
    if isPlannerVerdictEvent row.scope row.actor then
      { maps with verdict := recordLatest maps.verdict key (runEvent row .taskFailed) }
    else { maps with failed := recordLatest maps.failed key (runEvent row .taskFailed) }

/-- One more card row: its key if it is a worker's, and the card if it is the first of its key. -/
def readCard (read : ExtTreeSet Text × ExtTreeMap Text (Card N))
    (row : CardProjection N) : ExtTreeSet Text × ExtTreeMap Text (Card N) :=
  if row.role ≠ "worker".toList then read
  else match idempotencyKeyFromPayload row.card.payload with
    | none => read
    | some key => (read.1.insert key, read.2.insertIfNew key row.card)

def workerCards (cards : List (CardProjection N)) :
    ExtTreeSet Text × ExtTreeMap Text (Card N) :=
  cards.foldl readCard (∅, ∅)

/-- `first`, with what `second` has for other keys. -/
def orInsertAll {V : Type} (first second : ExtTreeMap Text V) : ExtTreeMap Text V :=
  second.toList.foldl (fun stored entry => stored.insertIfNew entry.1 entry.2) first

/-- The maps once the whole log is read; `keys` are those of the worker cards. -/
def readLog (events : List (TrackEvent N)) (keys : ExtTreeSet Text) : RunMaps N :=
  events.foldl RunMaps.record
    { keys
      requested := ∅
      requestedKind := ∅
      dispatched := ∅
      dispatchedKind := ∅
      completed := ∅
      failed := ∅
      verdict := ∅ }

def projectRuns (db : Database N) (visibility : CardVisibility) : List (RunProjection N) :=
  let read := workerCards (cardsForTrack db visibility)
  let maps := readLog db.events read.1
  let requested := orInsertAll maps.requested maps.dispatched
  let requestedKind := orInsertAll maps.requestedKind maps.dispatchedKind
  let canceled := ExtTreeMap.ofList
    (db.canceled.map fun attempt => (attempt.attemptId, attempt))
  (maps.keys.toList.filter runKeyIsVisible).map fun key =>
    assemble key read.2[key]? requested[key]? requestedKind[key]? maps.completed[key]?
      maps.failed[key]? maps.verdict[key]? canceled[key]?

/-! ## One run -/

/-- The records of one key while its rows are read. -/
structure KeyRecords (N : Type) where
  requestedEvent : Option (RunEventProjection N)
  requestedKind : Option RunKind
  dispatchedEvent : Option (RunEventProjection N)
  dispatchedKind : Option RunKind
  completedEvent : Option (RunEventProjection N)
  failedEvent : Option (RunEventProjection N)
  verdictEvent : Option (RunEventProjection N)

def KeyRecords.empty : KeyRecords N := ⟨none, none, none, none, none, none, none⟩

/-- The event, when there is none yet or it replaces the one there is. -/
def replaceIf (replaces : Int → Int → Bool) (stored : Option (RunEventProjection N))
    (event : RunEventProjection N) : Option (RunEventProjection N) :=
  match stored with
  | none => some event
  | some existing => if replaces existing.eventId event.eventId then some event else some existing

def earlier (stored : Option (RunEventProjection N)) (event : RunEventProjection N) :
    Option (RunEventProjection N) :=
  replaceIf (fun existing new => existing > new) stored event

def later (stored : Option (RunEventProjection N)) (event : RunEventProjection N) :
    Option (RunEventProjection N) :=
  replaceIf (fun existing new => existing < new) stored event

def KeyRecords.record (records : KeyRecords N) (row : TrackEvent N) : KeyRecords N :=
  match row.event with
  | .taskDispatched kind =>
    { records with
      dispatchedKind := some (runKindStatic kind)
      dispatchedEvent := earlier records.dispatchedEvent (runEvent row .taskDispatched) }
  | .codexWorkerRequested =>
    { records with
      requestedKind := some .codex
      requestedEvent := earlier records.requestedEvent (runEvent row .codexWorkerRequested) }
  | .terminalWorkerRequested =>
    { records with
      requestedKind := some .terminal
      requestedEvent := earlier records.requestedEvent (runEvent row .terminalWorkerRequested) }
  | .taskCompleted =>
    if isPlannerVerdictEvent row.scope row.actor then
      { records with verdictEvent := later records.verdictEvent (runEvent row .taskCompleted) }
    else
      { records with completedEvent := later records.completedEvent (runEvent row .taskCompleted) }
  | .taskFailed =>
    if isPlannerVerdictEvent row.scope row.actor then
      { records with verdictEvent := later records.verdictEvent (runEvent row .taskFailed) }
    else { records with failedEvent := later records.failedEvent (runEvent row .taskFailed) }

def runEventsForKey (db : Database N) (key : Text) : List (TrackEvent N) :=
  db.events.filter fun row => row.idempotencyKey == key

section ByKey

variable [JsonNumber N]

def workerCardForRunKey (db : Database N) (visibility : CardVisibility) (key : Text) :
    Option (CardProjection N) :=
  (db.cards.filter fun row =>
    row.role == "worker".toList && extractedKey row.card.payload == .text key).find?
      (db.isVisible visibility)

def projectRunByKey (db : Database N) (visibility : CardVisibility) (key : Text) :
    Option (RunProjection N) :=
  if !runKeyIsVisible key then none
  else
    let workerCard := (workerCardForRunKey db visibility key).map CardProjection.card
    let events := runEventsForKey db key
    if workerCard.isNone && events.isEmpty then none
    else
      let records := events.foldl KeyRecords.record KeyRecords.empty
      some (assemble key workerCard (records.requestedEvent.or records.dispatchedEvent)
        (records.requestedKind.or records.dispatchedKind) records.completedEvent
        records.failedEvent records.verdictEvent
        (db.canceled.find? fun attempt => attempt.attemptId == key))

end ByKey

/-! ## The maps, key by key -/

/-- What the maps hold for one key. -/
def RunMaps.recordsOf (maps : RunMaps N) (key : Text) : KeyRecords N where
  requestedEvent := maps.requested[key]?
  requestedKind := maps.requestedKind[key]?
  dispatchedEvent := maps.dispatched[key]?
  dispatchedKind := maps.dispatchedKind[key]?
  completedEvent := maps.completed[key]?
  failedEvent := maps.failed[key]?
  verdictEvent := maps.verdict[key]?

theorem recordUnless_get {keeps replaces : Int → Int → Bool}
    (opposite : ∀ existing new, replaces existing new = !keeps existing new)
    (map : ExtTreeMap Text (RunEventProjection N)) (key other : Text)
    (event : RunEventProjection N) :
    (recordUnless keeps map key event)[other]? =
      if other = key then replaceIf replaces map[key]? event else map[other]? := by
  unfold recordUnless replaceIf
  cases stored : map[key]? with
  | none => simp [get_insert]
  | some existing =>
    dsimp only
    rw [opposite]
    by_cases same : other = key
    · subst same
      cases keeps existing.eventId event.eventId <;> simp [stored]
    · cases keeps existing.eventId event.eventId <;> simp [get_insert, same]

theorem recordEarliest_get (map : ExtTreeMap Text (RunEventProjection N)) (key other : Text)
    (event : RunEventProjection N) :
    (recordEarliest map key event)[other]? =
      if other = key then earlier map[key]? event else map[other]? :=
  recordUnless_get (fun existing new => by
    simp only [gt_iff_lt, ← decide_not, Int.not_le]) map key other event

theorem recordLatest_get (map : ExtTreeMap Text (RunEventProjection N)) (key other : Text)
    (event : RunEventProjection N) :
    (recordLatest map key event)[other]? =
      if other = key then later map[key]? event else map[other]? :=
  recordUnless_get (fun existing new => by
    simp only [ge_iff_le, ← decide_not, Int.not_le]) map key other event

/-- One row of the log changes the records of its own key, as the reader of that key does. -/
theorem recordsOf_record (maps : RunMaps N) (row : TrackEvent N) (key : Text) :
    (maps.record row).recordsOf key =
      if row.idempotencyKey = key then (maps.recordsOf key).record row else maps.recordsOf key := by
  unfold RunMaps.record KeyRecords.record RunMaps.recordsOf
  by_cases same : row.idempotencyKey = key
  · subst same
    cases row.event <;> simp only [recordEarliest_get, get_insert, ↓reduceIte]
    all_goals split <;> simp [recordLatest_get]
  · have other : key ≠ row.idempotencyKey := fun eq => same eq.symm
    cases row.event <;> simp only [recordEarliest_get, get_insert, other, same, ↓reduceIte]
    all_goals split <;> simp [recordLatest_get, other]

theorem recordsOf_foldl (events : List (TrackEvent N)) (maps : RunMaps N) (key : Text) :
    (events.foldl RunMaps.record maps).recordsOf key =
      (events.filter fun row => row.idempotencyKey == key).foldl KeyRecords.record
        (maps.recordsOf key) := by
  induction events generalizing maps with
  | nil => rfl
  | cons row _ ih =>
    rw [foldl_cons, ih, recordsOf_record, filter_cons]
    by_cases same : row.idempotencyKey = key <;> simp [same]

/-- An event that asks for a run: these bring their key into the list. -/
def RunEvent.asks : RunEvent → Bool
  | .codexWorkerRequested | .terminalWorkerRequested | .taskDispatched _ => true
  | .taskCompleted | .taskFailed => false

theorem mem_keys_record (maps : RunMaps N) (row : TrackEvent N) (key : Text) :
    key ∈ (maps.record row).keys ↔
      key ∈ maps.keys ∨ row.event.asks = true ∧ row.idempotencyKey = key := by
  unfold RunMaps.record
  cases row.event <;> simp only [RunEvent.asks]
  case taskCompleted | taskFailed => split <;> simp
  all_goals simp [ExtTreeSet.mem_insert, LawfulEqCmp.compare_eq_iff_eq, or_comm]

theorem mem_keys_foldl (events : List (TrackEvent N)) (maps : RunMaps N) (key : Text) :
    key ∈ (events.foldl RunMaps.record maps).keys ↔
      key ∈ maps.keys ∨ ∃ row ∈ events, row.event.asks = true ∧ row.idempotencyKey = key := by
  induction events generalizing maps with
  | nil => simp
  | cons _ _ ih =>
    rw [foldl_cons, ih, mem_keys_record]
    simp only [mem_cons, exists_eq_or_imp, or_assoc]

variable (cards : List (CardProjection N)) (db : Database N) (visibility : CardVisibility)
    (key : Text)

/-- Whether a card row is a worker's and carries the key. -/
def CardProjection.works (key : Text) (row : CardProjection N) : Bool :=
  row.role == "worker".toList && idempotencyKeyFromPayload row.card.payload == some key

/-- The card of a key is the one read before, or else the first worker card that carries it. -/
theorem foldl_readCard (read : ExtTreeSet Text × ExtTreeMap Text (Card N)) (key : Text)
    (listed : key ∈ read.1 ↔ key ∈ read.2) :
    (key ∈ (cards.foldl readCard read).1 ↔ key ∈ (cards.foldl readCard read).2) ∧
      (cards.foldl readCard read).2[key]? =
        read.2[key]?.or ((cards.find? (CardProjection.works key)).map CardProjection.card) := by
  induction cards generalizing read with
  | nil => simpa using listed
  | cons row _ ih =>
    rw [foldl_cons]
    by_cases worker : row.role = "worker".toList
    · cases carried : idempotencyKeyFromPayload row.card.payload with
      | none =>
        rw [readCard, if_neg (not_not.mpr worker), carried,
          find?_cons_of_neg (by simp [CardProjection.works, carried])]
        exact ih read listed
      | some other =>
        rw [readCard, if_neg (not_not.mpr worker), carried]
        obtain ⟨same, first⟩ := ih (read.1.insert other, read.2.insertIfNew other row.card) (by
          simp [ExtTreeSet.mem_insert, ExtTreeMap.mem_insertIfNew, listed])
        refine ⟨same, first.trans ?_⟩
        rw [get_insertIfNew, Option.or_assoc]
        by_cases here : other = key
        · subst here
          rw [find?_cons_of_pos (by simp [CardProjection.works, worker, carried])]
          simp
        · rw [find?_cons_of_neg (by simp [CardProjection.works, carried, here])]
          simp [Ne.symm here]
    · rw [readCard, if_pos worker, find?_cons_of_neg (by
        simp only [CardProjection.works, Bool.and_eq_true, beq_iff_eq, worker, false_and,
          not_false_eq_true])]
      exact ih read listed

theorem workerCards_get : (workerCards cards).2[key]? =
      (cards.find? (CardProjection.works key)).map CardProjection.card := by
  rw [workerCards, (foldl_readCard cards (∅, ∅) key (by simp)).2]
  simp

theorem mem_workerCards :
    key ∈ (workerCards cards).1 ↔ (cards.find? (CardProjection.works key)).isSome := by
  have same := (foldl_readCard cards (∅, ∅) key (by simp)).1
  have first := workerCards_get cards key
  rw [workerCards] at first ⊢
  rw [same, ← ExtTreeMap.isSome_getElem?_iff_mem, first, Option.isSome_map]

theorem find?_of_unique {α : Type*} {p : α → Bool} {l : List α} {a : α} (member : a ∈ l)
    (holds : p a = true) (unique : ∀ b ∈ l, p b = true → b = a) : l.find? p = some a := by
  obtain ⟨b, found⟩ := Option.isSome_iff_exists.mp (find?_isSome.mpr ⟨a, member, holds⟩)
  rw [found, unique b (mem_of_find?_eq_some found) (find?_some found)]

theorem orInsertAll_get {V : Type} (first second : ExtTreeMap Text V) (key : Text) :
    (orInsertAll first second)[key]? = first[key]?.or second[key]? := by
  have fold : ∀ (entries : List (Text × V)) (stored : ExtTreeMap Text V),
      (entries.foldl (fun stored entry => stored.insertIfNew entry.1 entry.2) stored)[key]? =
        stored[key]?.or ((entries.find? fun entry => entry.1 == key).map Prod.snd) := by
    intro entries
    induction entries with
    | nil => simp
    | cons entry _ ih =>
      intro stored
      rw [foldl_cons, ih, get_insertIfNew, Option.or_assoc]
      by_cases here : entry.1 = key
      · simp [here]
      · simp [here, Ne.symm here]
  rw [orInsertAll, fold]
  congr 1
  cases found : second[key]? with
  | none =>
    rw [Option.map_eq_none_iff, find?_eq_none]
    rintro ⟨_, value⟩ among same
    simp only [beq_iff_eq] at same
    rw [ExtTreeMap.mem_toList_iff_getElem?_eq_some, same, found] at among
    cases among
  | some value =>
    rw [Option.map_eq_some_iff]
    refine ⟨(key, value), find?_of_unique
      (ExtTreeMap.mem_toList_iff_getElem?_eq_some.mpr found) (beq_self_eq_true _) ?_, rfl⟩
    rintro ⟨_, _⟩ among same
    cases beq_iff_eq.mp same
    rw [ExtTreeMap.mem_toList_iff_getElem?_eq_some, found] at among
    cases among
    rfl

theorem canceled_get :
    (ExtTreeMap.ofList (db.canceled.map fun attempt => (attempt.attemptId, attempt)))[key]? =
      db.canceled.find? fun attempt => attempt.attemptId == key := by
  have nodup : ((db.canceled.map fun attempt => (attempt.attemptId, attempt)).map
      Prod.fst).Nodup := by
    simpa [Function.comp_def] using db.distinctCanceled
  apply Option.ext
  intro attempt
  rw [get_ofList_iff nodup, mem_map]
  constructor
  · rintro ⟨held, among, same⟩
    obtain ⟨rfl, rfl⟩ := Prod.mk.inj same
    exact find?_of_unique among (beq_self_eq_true _) fun _ isOther same =>
      inj_on_of_nodup_map db.distinctCanceled isOther among (beq_iff_eq.mp same)
  · intro found
    refine ⟨attempt, mem_of_find?_eq_some found, ?_⟩
    have same : attempt.attemptId = key := by simpa using find?_some found
    rw [same]

/-! ## When the projections agree -/

theorem find?_filter_of_first {α : Type*} {p q : α → Bool} {l : List α}
    (first : ∀ a, l.find? p = some a → q a = true) : (l.filter q).find? p = l.find? p := by
  induction l with
  | nil => rfl
  | cons a l ih =>
    by_cases here : p a = true
    · have kept : q a = true := first a (find?_cons_of_pos here)
      rw [filter_cons_of_pos kept, find?_cons_of_pos here, find?_cons_of_pos here]
    · rw [find?_cons_of_neg here] at first ⊢
      by_cases kept : q a = true
      · rw [filter_cons_of_pos kept, find?_cons_of_neg here]
        exact ih first
      · rw [filter_cons_of_neg kept]
        exact ih first

/-- The worker card that the full projection shows for a key. -/
def listedCard (db : Database N) (visibility : CardVisibility) (key : Text) :
    Option (CardProjection N) :=
  (cardsForTrack db visibility).find? (CardProjection.works key)

/-- The listed keys: those of a visible worker card and those some event asked for. -/
def IsListed (db : Database N) (visibility : CardVisibility) (key : Text) : Prop :=
  (listedCard db visibility key).isSome ∨
    ∃ row ∈ db.events, row.event.asks = true ∧ row.idempotencyKey = key

/-- The run of a key with some worker card, from its own rows. -/
def runWith (db : Database N) (workerCard : Option (CardProjection N)) (key : Text) :
    RunProjection N :=
  let records := (runEventsForKey db key).foldl KeyRecords.record KeyRecords.empty
  assemble key (workerCard.map CardProjection.card)
    (records.requestedEvent.or records.dispatchedEvent)
    (records.requestedKind.or records.dispatchedKind) records.completedEvent
    records.failedEvent records.verdictEvent
    (db.canceled.find? fun attempt => attempt.attemptId == key)

/-- The run of a key, whether or not it is listed. -/
def runOf (db : Database N) (visibility : CardVisibility) (key : Text) : RunProjection N :=
  runWith db (listedCard db visibility key) key

/-- **What the full projection lists.**  One run for each listed key that is not reserved, the
same as the rows of that key give, in order of key. -/
theorem projectRuns_eq :
    ∃ keys : List Text, keys.Pairwise (fun first second => compare first second = .lt) ∧
      (∀ key, key ∈ keys ↔ runKeyIsVisible key = true ∧ IsListed db visibility key) ∧
      projectRuns db visibility = keys.map (runOf db visibility) := by
  let keys := (workerCards (cardsForTrack db visibility)).1
  refine ⟨(readLog db.events keys).keys.toList.filter runKeyIsVisible, ?_, ?_, ?_⟩
  · exact ExtTreeSet.ordered_toList.filter _
  · intro key
    rw [mem_filter, ExtTreeSet.mem_toList, readLog, mem_keys_foldl, and_comm, IsListed,
      listedCard, ← mem_workerCards]
  · rw [projectRuns]
    apply map_congr_left
    intro key _
    have records : (readLog db.events keys).recordsOf key =
        (runEventsForKey db key).foldl KeyRecords.record KeyRecords.empty := by
      rw [readLog, recordsOf_foldl, runEventsForKey]
      simp [RunMaps.recordsOf, KeyRecords.empty]
    simp only [orInsertAll_get, canceled_get, workerCards_get, runOf, runWith, listedCard,
      ← records]
    rfl

section Agreement

variable [JsonNumber N]

/-- The keys for which the two projections agree. -/
def Agrees (db : Database N) (visibility : CardVisibility) (key : Text) : Prop :=
  projectRunByKey db visibility key =
    (projectRuns db visibility).find? fun run => run.attemptId == key

omit [JsonNumber N] in
theorem find_projectRuns : (∀ (_ : runKeyIsVisible key = true ∧ IsListed db visibility key),
      ((projectRuns db visibility).find? fun run => run.attemptId == key) =
        some (runOf db visibility key)) ∧
    (¬ (runKeyIsVisible key = true ∧ IsListed db visibility key) →
      ((projectRuns db visibility).find? fun run => run.attemptId == key) = none) := by
  obtain ⟨keys, -, listed, runs⟩ := projectRuns_eq db visibility
  rw [runs, find?_map]
  constructor
  · intro shown
    have found : keys.find? (fun other => (runOf db visibility other).attemptId == key) =
        some key :=
      find?_of_unique ((listed key).mpr shown) (beq_self_eq_true _) fun _ _ same =>
        beq_iff_eq.mp same
    rw [Function.comp_def, found, Option.map_some]
  · intro hidden
    rw [Option.map_eq_none_iff, find?_eq_none]
    intro other among same
    have isKey : other = key := by simpa [runOf, runWith, assemble] using same
    exact hidden ((listed key).mp (isKey ▸ among))

/-- The worker card that the query finds for a key has the key as a string. -/
def Carried (db : Database N) (visibility : CardVisibility) (key : Text) : Prop :=
  ∀ row, workerCardForRunKey db visibility key = some row →
    idempotencyKeyFromPayload row.card.payload = some key

theorem extractedKey_of_string {payload : Json N}
    (isKey : idempotencyKeyFromPayload payload = some key) : extractedKey payload = .text key := by
  obtain ⟨value, found, isString⟩ := Option.bind_eq_some_iff.mp isKey
  cases value with
  | string => cases isString; rw [extractedKey, found]
  | null | bool | number | array | object => cases isString

theorem workerCardForRunKey_eq : workerCardForRunKey db visibility key =
      (cardsForTrack db visibility).find? fun row =>
        row.role == "worker".toList && extractedKey row.card.payload == .text key := by
  rw [workerCardForRunKey, cardsForTrack, find?_filter, find?_filter]
  congr 1
  funext row
  exact decide_eq_decide.mpr and_comm

/-- The query finds the listed card exactly if the one it finds has the key as a string. -/
theorem carried_iff : Carried db visibility key ↔
    workerCardForRunKey db visibility key = listedCard db visibility key := by
  have found := workerCardForRunKey_eq db visibility key
  constructor
  · intro carried
    have first : ∀ row, workerCardForRunKey db visibility key = some row →
        CardProjection.works key row = true := by
      intro row isRow
      have isWorker := find?_some (found ▸ isRow)
      rw [Bool.and_eq_true] at isWorker
      rw [CardProjection.works, isWorker.1, carried row isRow, beq_self_eq_true, Bool.and_self]
    rw [found] at first ⊢
    rw [← find?_filter_of_first first, find?_filter, listedCard]
    congr 1
    funext row
    rw [Bool.eq_iff_iff]
    simp only [CardProjection.works, Bool.and_eq_true, decide_eq_true_eq, beq_iff_eq]
    exact ⟨And.left, fun works => ⟨works, works.1, extractedKey_of_string key works.2⟩⟩
  · intro same row isRow
    have works := find?_some (same ▸ isRow)
    simp only [CardProjection.works, Bool.and_eq_true, beq_iff_eq] at works
    exact works.2

/-- A key is settled when it is reserved, or its card is found by the string and its run is listed
or no event names it: a run that only ended is not. -/
def Settled (db : Database N) (visibility : CardVisibility) (key : Text) : Prop :=
  isReservedRunKey key = true ∨ Carried db visibility key ∧
    (IsListed db visibility key ∨ runEventsForKey db key = [])

theorem projectRunByKey_eq : projectRunByKey db visibility key =
      if isReservedRunKey key = true ∨
        (workerCardForRunKey db visibility key).isNone ∧ runEventsForKey db key = [] then none
      else some (runWith db (workerCardForRunKey db visibility key) key) := by
  unfold projectRunByKey runKeyIsVisible
  by_cases reserved : isReservedRunKey key = true
  · simp [reserved]
  · simp only [reserved, Bool.not_false, Bool.not_true, Bool.false_eq_true, ↓reduceIte, false_or,
      Option.isNone_map, Bool.and_eq_true, List.isEmpty_iff]
    rfl

/-- A card that is not the listed one shows. -/
theorem Agrees.carried (agrees : Agrees db visibility key) (free : ¬ isReservedRunKey key = true) :
    Carried db visibility key := by
  intro row isRow
  have isRun : ((projectRuns db visibility).find? fun run => run.attemptId == key) =
      some (runWith db (some row) key) := by
    rw [← agrees, projectRunByKey_eq, isRow, if_neg (by simpa using free)]
  obtain ⟨shown, hidden⟩ := find_projectRuns db visibility key
  by_cases listed : runKeyIsVisible key = true ∧ IsListed db visibility key
  · have same : (listedCard db visibility key).map CardProjection.card = some row.card :=
      congrArg RunProjection.workerCard (Option.some.inj ((shown listed).symm.trans isRun))
    obtain ⟨row', isListed, same⟩ := Option.map_eq_some_iff.mp same
    have works := find?_some isListed
    simp only [CardProjection.works, Bool.and_eq_true, beq_iff_eq] at works
    rw [← same]
    exact works.2
  · cases (hidden listed).symm.trans isRun

/-- **The two projections agree exactly on the settled keys.** -/
theorem agrees_iff : Agrees db visibility key ↔ Settled db visibility key := by
  obtain ⟨shown, hidden⟩ := find_projectRuns db visibility key
  by_cases reserved : isReservedRunKey key = true
  · have absent := hidden fun both => by simp [runKeyIsVisible, reserved] at both
    simp [Agrees, Settled, projectRunByKey_eq, reserved, absent]
  · by_cases carried : Carried db visibility key
    · have card := (carried_iff db visibility key).mp carried
      rw [Agrees, Settled, projectRunByKey_eq, card]
      have visible : runKeyIsVisible key = true := by simpa [runKeyIsVisible] using reserved
      by_cases listed : IsListed db visibility key
      · have known : ¬ ((listedCard db visibility key).isNone ∧ runEventsForKey db key = []) := by
          rintro ⟨none, silent⟩
          rcases listed with card | ⟨row, among, _, same⟩
          · simp [Option.isNone_iff_eq_none.mp none] at card
          · have named : row ∈ runEventsForKey db key := mem_filter.mpr ⟨among, by simpa using same⟩
            simp [silent] at named
        rw [if_neg (not_or.mpr ⟨reserved, known⟩), shown ⟨visible, listed⟩]
        simp [listed, carried, runOf]
      · rw [hidden fun both => listed both.2]
        have none : (listedCard db visibility key).isNone := by
          by_contra card
          exact listed (.inl (by simpa [Option.isSome_iff_ne_none] using card))
        simp [reserved, listed, none, carried]
    · exact ⟨fun agrees => absurd (agrees.carried db visibility key reserved) carried,
        fun settled => absurd (settled.resolve_left reserved).1 carried⟩

end Agreement

end NeigeCalm.Runs
