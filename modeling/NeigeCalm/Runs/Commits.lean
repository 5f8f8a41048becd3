import NeigeCalm.Runs.Delta

/-!
# Commits keep the runs files

A transaction changes cards, the log and canceled executions, and logs events that name what it
changed.  As long as no run is known by its end alone, the files that its commit writes are
those of a snapshot taken from scratch.
-/

namespace NeigeCalm.Runs

open Library List Fallible

variable {N : Type}

/-! ## Runs of the system -/

/-- The rows but those of one card. -/
def Database.without (db : Database N) (id : Text) : List (CardProjection N) :=
  db.cards.filter fun row => row.card.id != id

/-- A write of a transaction with the event it logs.  A card row that changes is announced by an
event that names it, unless nobody sees the card. -/
inductive Write (visibility : CardVisibility) : Database N → List (Event N) → Database N → Prop
  | run {db after : Database N} (row : TrackEvent N) :
      after.events = db.events ++ [row] → after.cards = db.cards →
      after.announced = db.announced → after.canceled = db.canceled →
      Write visibility db [.run row] after
  | cardAdded {db after : Database N} (card : Card N) :
      after.without card.id = db.without card.id → after.announced = db.announced ++ [card.id] →
      after.events = db.events → after.canceled = db.canceled →
      Write visibility db [.cardAdded card] after
  | cardUpdated {db after : Database N} (card : Card N) :
      after.without card.id = db.without card.id → after.announced = db.announced →
      after.events = db.events → after.canceled = db.canceled →
      Write visibility db [.cardUpdated card] after
  | cardDeleted {db after : Database N} (id : Text) :
      after.without id = db.without id → after.announced = db.announced →
      after.events = db.events → after.canceled = db.canceled →
      Write visibility db [.cardDeleted id] after
  | hidden {db after : Database N} (id : Text) :
      visibility.includes id (db.announced.contains id) = false →
      after.without id = db.without id → after.announced = db.announced →
      after.events = db.events → after.canceled = db.canceled →
      Write visibility db [] after
  | cancel {db after : Database N} (attempt : CanceledTaskAttempt) (changedKeys : List Text) :
      attempt.key ∈ changedKeys → after.canceled = db.canceled ++ [attempt] →
      after.cards = db.cards → after.announced = db.announced → after.events = db.events →
      Write visibility db [.planUpdated changedKeys] after
  | workerSession (db : Database N) (cardId : Text) :
      Write visibility db [.workerSession cardId] db
  | planUpdated (db : Database N) (changedKeys : List Text) :
      Write visibility db [.planUpdated changedKeys] db
  | other (db : Database N) : Write visibility db [.other] db

/-- The writes of one transaction and all events it logs. -/
inductive Transaction (visibility : CardVisibility) :
    Database N → List (Event N) → Database N → Prop
  | nil (db : Database N) : Transaction visibility db [] db
  | cons {db between after : Database N} {events more : List (Event N)} :
      Write visibility db events between → Transaction visibility between more after →
      Transaction visibility db (events ++ more) after

/-- The rows of a track and the runs files of its head tree. -/
structure Head (N : Type) where
  db : Database N
  entries : Entries N

/-- A transaction with its commit, after which every key is settled.  If the delta fails, so does
the transaction. -/
inductive Commit [JsonNumber N] (visibility : CardVisibility) : Head N → Head N → Prop
  | mk {head : Head N} {after : Database N} {events : List (Event N)} {entries : Entries N} :
      Transaction visibility head.db events after →
      (∀ key, Settled after visibility key) →
      applyDelta after visibility (deltaOf events) head.entries = .ok entries →
      Commit visibility head { db := after, entries }

/-! ## What a transaction can change -/

theorem deltaOf_eq :
    deltaOf events =
      ⟨events.flatMap fun event => (pathsChangedByEvent event).runKeys,
        events.flatMap fun event => (pathsChangedByEvent event).runCardIds,
        events.flatMap fun event => (pathsChangedByEvent event).runTaskKeys⟩ := by
  have fold : ∀ delta : PathDelta,
      events.foldl (fun delta event => delta.merge (pathsChangedByEvent event)) delta =
        delta.merge
          ⟨events.flatMap fun event => (pathsChangedByEvent event).runKeys,
            events.flatMap fun event => (pathsChangedByEvent event).runCardIds,
            events.flatMap fun event => (pathsChangedByEvent event).runTaskKeys⟩ := by
    induction events with
    | nil => simp [PathDelta.merge]
    | cons _ _ ih =>
      intro delta
      rw [foldl_cons, ih]
      simp [PathDelta.merge]
  rw [deltaOf, fold]
  simp [PathDelta.merge]

/-- The card an event names. -/
def Event.cardId : Event N → Option Text
  | .cardAdded card | .cardUpdated card => some card.id
  | .cardDeleted id | .workerSession id => some id
  | .run _ | .planUpdated _ | .other => none

variable {db after : Database N}

theorem mem_runCardIds {id : Text} (among : event ∈ events) (names : event.cardId = some id) :
    id ∈ (deltaOf events).runCardIds := by
  rw [deltaOf_eq]
  refine mem_flatMap.mpr ⟨event, among, ?_⟩
  cases event <;> simp_all [Event.cardId, pathsChangedByEvent]

/-- Whether no event names the card of a row. -/
def untouched (events : List (Event N)) (row : CardProjection N) : Bool :=
  events.all fun event => event.cardId != some row.card.id

/-- What the events of a transaction leave alone: the rows of cards they do not name, and all
that was logged or canceled before. -/
structure Frame (visibility : CardVisibility) (events : List (Event N))
    (db after : Database N) : Prop where
  cards : (cardsForTrack after visibility).filter (untouched events) =
    (cardsForTrack db visibility).filter (untouched events)
  log : ∃ added, after.events = db.events ++ added ∧ ∀ row ∈ added, .run row ∈ events
  canceled : ∃ added, after.canceled = db.canceled ++ added ∧
    ∀ attempt ∈ added, ∃ keys, .planUpdated keys ∈ events ∧ attempt.key ∈ keys

theorem Frame.refl (visibility : CardVisibility) (events : List (Event N)) (db : Database N) :
    Frame visibility events db db :=
  ⟨rfl, ⟨[], by simp, by simp⟩, ⟨[], by simp, by simp⟩⟩

theorem filter_untouched_append (events more : List (Event N)) (rows : List (CardProjection N)) :
    rows.filter (untouched (events ++ more)) =
      (rows.filter (untouched events)).filter (untouched more) := by
  rw [filter_filter]
  congr 1
  funext row
  simp [untouched, all_append, Bool.and_comm]

theorem Frame.trans (first : Frame visibility events db between)
    (second : Frame visibility more between after) :
    Frame visibility (events ++ more) db after := by
  obtain ⟨cards, ⟨rows, log, named⟩, ⟨attempts, canceled, keyed⟩⟩ := first
  obtain ⟨cards', ⟨rows', log', named'⟩, ⟨attempts', canceled', keyed'⟩⟩ := second
  refine ⟨?_, ⟨rows ++ rows', by rw [log', log, append_assoc], ?_⟩,
    ⟨attempts ++ attempts', by rw [canceled', canceled, append_assoc], ?_⟩⟩
  · have commute : ∀ rows : List (CardProjection N), rows.filter (untouched (events ++ more)) =
        (rows.filter (untouched more)).filter (untouched events) := by
      intro rows
      rw [filter_untouched_append, filter_filter, filter_filter]
      simp only [Bool.and_comm]
    rw [commute, cards', ← commute, filter_untouched_append, cards, ← filter_untouched_append]
  · intro row among
    rcases mem_append.mp among with one | two
    · exact mem_append_left _ (named row one)
    · exact mem_append_right _ (named' row two)
  · intro attempt among
    rcases mem_append.mp among with one | two
    · obtain ⟨keys, logged, among⟩ := keyed attempt one
      exact ⟨keys, mem_append_left _ logged, among⟩
    · obtain ⟨keys, logged, among⟩ := keyed' attempt two
      exact ⟨keys, mem_append_right _ logged, among⟩

/-- When only one card's rows and announcement changed, the visible rows of the others are the
same. -/
theorem cardsForTrack_without {id : Text} (rows : after.without id = db.without id)
    (announced : ∀ other, other ≠ id →
      after.announced.contains other = db.announced.contains other) :
    (cardsForTrack after visibility).filter (fun row => row.card.id != id) =
      (cardsForTrack db visibility).filter fun row => row.card.id != id := by
  have commute : ∀ db : Database N,
      (cardsForTrack db visibility).filter (fun row => row.card.id != id) =
        (db.without id).filter (db.isVisible visibility) := by
    intro db
    rw [cardsForTrack, Database.without, filter_filter, filter_filter]
    simp only [Bool.and_comm]
  rw [commute, commute, rows]
  apply filter_congr
  intro row among
  have other : row.card.id ≠ id := by simpa using (mem_filter.mp among).2
  rw [Database.isVisible, Database.isVisible, announced _ other]

theorem cardsForTrack_congr (visibility : CardVisibility) (cards : after.cards = db.cards)
    (announced : after.announced = db.announced) :
    cardsForTrack after visibility = cardsForTrack db visibility := by
  have visible : after.isVisible visibility = db.isVisible visibility := by
    funext row
    rw [Database.isVisible, Database.isVisible, announced]
  rw [cardsForTrack, cardsForTrack, visible, cards]

/-- A write that touches the rows of the card its event names. -/
theorem Frame.card {id : Text} (names : event.cardId = some id)
    (rows : after.without id = db.without id) (announced : ∀ other, other ≠ id →
      after.announced.contains other = db.announced.contains other) (log : after.events = db.events)
    (canceled : after.canceled = db.canceled) : Frame visibility [event] db after := by
  refine ⟨?_, ⟨[], by simp [log], by simp⟩, ⟨[], by simp [canceled], by simp⟩⟩
  have same : untouched [event] = fun row : CardProjection N => row.card.id != id := by
    funext row
    simp [untouched, names, bne, Bool.beq_comm]
  rw [same]
  exact cardsForTrack_without rows announced

theorem Write.frame (write : Write visibility db events after) :
    Frame visibility events db after := by
  cases write with
  | run row log cards announced canceled =>
    have visible := cardsForTrack_congr visibility cards announced
    exact ⟨by rw [visible], ⟨[row], log, by simp⟩, ⟨[], by simp [canceled], by simp⟩⟩
  | cardAdded _ rows announced log canceled =>
    refine Frame.card rfl rows (fun other different => ?_) log canceled
    simp [announced, different]
  | cardUpdated _ rows announced log canceled | cardDeleted _ rows announced log canceled =>
    exact Frame.card rfl rows (fun other _ => by rw [announced]) log canceled
  | hidden id unseen rows announced log canceled =>
    have all : ∀ db : Database N, visibility.includes id (db.announced.contains id) = false →
        (cardsForTrack db visibility).filter (fun row => row.card.id != id) =
          cardsForTrack db visibility := by
      intro db unseen
      rw [filter_eq_self]
      intro row among
      have seen := (mem_filter.mp among).2
      rw [bne_iff_ne]
      intro same
      rw [Database.isVisible, same, unseen] at seen
      cases seen
    have visible : cardsForTrack after visibility = cardsForTrack db visibility := by
      rw [← all after (by rw [announced, unseen]), ← all db unseen]
      exact cardsForTrack_without rows fun other _ => by rw [announced]
    exact ⟨by rw [visible], ⟨[], by simp [log], by simp⟩, ⟨[], by simp [canceled], by simp⟩⟩
  | cancel attempt changedKeys names canceled cards announced log =>
    have visible := cardsForTrack_congr visibility cards announced
    refine ⟨by rw [visible], ⟨[], by simp [log], by simp⟩, ⟨[attempt], canceled, ?_⟩⟩
    intro other among
    exact ⟨changedKeys, mem_singleton_self _, mem_singleton.mp among ▸ names⟩
  | workerSession | planUpdated | other => exact Frame.refl visibility _ db

theorem Transaction.frame (transaction : Transaction visibility db events after) :
    Frame visibility events db after := by
  induction transaction with
  | nil db => exact Frame.refl visibility [] db
  | cons write _ ih => exact write.frame.trans ih

/-! ## Keys a delta does not name -/

section Keys

variable [JsonNumber N]

/-- A worker card that a reader of its key sees is found by its id. -/
theorem runKeyForWorkerCard_of_mem (seen : row ∈ cardsForTrack db visibility)
    (works : row.works key = true) :
    runKeyForWorkerCard db visibility row.card.id = .ok (some key) := by
  obtain ⟨among, visible⟩ := mem_filter.mp seen
  simp only [CardProjection.works, Bool.and_eq_true, beq_iff_eq] at works
  have isKey := extractedKey_of_string key works.2
  have found : (db.cards.find? fun other => other.card.id == row.card.id &&
      other.role == "worker".toList && extractedKey other.card.payload != .null) = some row := by
    refine find?_of_unique among ?_ ?_
    · simp [works, isKey]
    · intro other isOther named
      simp only [Bool.and_eq_true, beq_iff_eq] at named
      exact inj_on_of_nodup_map db.distinctCards isOther among named.1.1
  rw [runKeyForWorkerCard, found]
  simp only [visible, ↓reduceIte, isKey]

omit [JsonNumber N] in
/-- The stored index names the key of every card it shows. -/
theorem runKeyForWorkerCardInIndex_of_shows (shows_ : Shows (projectRuns db visibility) entries)
    (free : isReservedRunKey key = false) (chosen : listedCard db visibility key = some row) :
    runKeyForWorkerCardInIndex entries row.card.id = some key := by
  have distinct := distinct_projectRuns db visibility
  obtain ⟨_, -, -, -, found⟩ := runIn_projectRuns db visibility
  have cardOf : ∀ other entry, (other, entry) ∈ (loadRunsIndexMap entries).toList →
      entry.workerCardId = (listedCard db visibility other).map fun row => row.card.id := by
    intro other entry among
    rw [Std.ExtTreeMap.mem_toList_iff_getElem?_eq_some, shows_.loadRunsIndexMap_get distinct,
      Option.map_eq_some_iff] at among
    obtain ⟨run, isRun, rfl⟩ := among
    obtain ⟨-, rfl⟩ := (found other run).mp isRun
    simp [runIndexEntry, runOf, runWith, assemble, Option.map_map, Function.comp_def]
  -- The run of the key is in the index, with this card.
  have shown : (key, runIndexEntry (runOf db visibility key)) ∈
      (loadRunsIndexMap entries).toList := by
    obtain ⟨listed, -⟩ := find_projectRuns db visibility key
    have isRun := listed ⟨by simpa [runKeyIsVisible] using free, .inl (by simp [chosen])⟩
    rw [Std.ExtTreeMap.mem_toList_iff_getElem?_eq_some, shows_.loadRunsIndexMap_get distinct,
      runIn, isRun, Option.map_some]
  obtain ⟨⟨other, entry⟩, isEntry⟩ := Option.isSome_iff_exists.mp
    (find?_isSome (p := fun entry : Text × RunIndexEntry =>
      entry.2.workerCardId == some row.card.id) |>.mpr
      ⟨_, shown, by rw [cardOf _ _ shown, chosen]; simp⟩)
  -- Whatever entry is found shows the same card, so it has the card's key.
  have named := find?_some isEntry
  simp only [beq_iff_eq] at named
  rw [cardOf _ _ (mem_of_find?_eq_some isEntry), Option.map_eq_some_iff] at named
  obtain ⟨row', chosen', same⟩ := named
  have works := find?_some chosen
  have works' := find?_some chosen'
  have among := mem_of_find?_eq_some chosen
  have among' := mem_of_find?_eq_some chosen'
  have isRow : row' = row := inj_on_of_nodup_map db.distinctCards
    (mem_filter.mp among').1 (mem_filter.mp among).1 same
  simp only [CardProjection.works, Bool.and_eq_true, beq_iff_eq] at works works'
  have isKey : other = key := by
    rw [isRow, works.2] at works'
    exact (Option.some.inj works'.2).symm
  rw [runKeyForWorkerCardInIndex, isEntry, Option.map_some, isKey]

variable {visibility : CardVisibility} {entries : Entries N} {key : Text} {keys : List Text}

/-- What the keys of a delta hold of one card that its events name. -/
theorem dirtyKeys_card {id : Text} (named : id ∈ delta.runCardIds)
    (dirty : dirtyKeys db visibility delta entries = .ok keys) :
    ∃ now, runKeyForWorkerCard db visibility id = .ok now ∧
      ∀ key ∈ now.toList ++ (runKeyForWorkerCardInIndex entries id).toList, key ∈ keys := by
  obtain ⟨cardKeys, all, same⟩ := bind_eq_ok.mp dirty
  cases same
  obtain ⟨here, among, isHere⟩ := exists_of_mapM all named
  obtain ⟨now, found, same⟩ := bind_eq_ok.mp isHere
  cases same
  exact ⟨now, found, fun key isKey => mem_append_right _ (mem_flatten_of_mem among isKey)⟩

theorem namedKeys_subset (dirty : dirtyKeys db visibility delta entries = .ok keys)
    (clean : key ∉ keys) : key ∉ namedKeys db delta := by
  obtain ⟨_, -, same⟩ := bind_eq_ok.mp dirty
  cases same
  exact fun named => clean (mem_append_left _ named)

theorem listedCard_clean (frame : Frame visibility events db after)
    (shows_ : Shows (projectRuns db visibility) entries) (free : isReservedRunKey key = false)
    (dirty : dirtyKeys after visibility (deltaOf events) entries = .ok keys) (clean : key ∉ keys) :
    listedCard after visibility key = listedCard db visibility key := by
  have kept : ∀ row : CardProjection N,
      (∀ now, runKeyForWorkerCard after visibility row.card.id = .ok now →
        key ∈ now.toList ++ (runKeyForWorkerCardInIndex entries row.card.id).toList) →
      untouched events row = true := by
    intro row isKey
    by_contra touched
    rw [Bool.not_eq_true] at touched
    simp only [untouched, all_eq_false, bne_iff_ne, ne_eq, not_not] at touched
    obtain ⟨_, among, names⟩ := touched
    obtain ⟨now, found, known⟩ := dirtyKeys_card (mem_runCardIds among names) dirty
    exact clean (known key (isKey now found))
  rw [listedCard, listedCard, ← find?_filter_of_first (q := untouched events), frame.cards,
    find?_filter_of_first (q := untouched events)]
  · intro row chosen
    refine kept row fun now _ => ?_
    rw [runKeyForWorkerCardInIndex_of_shows shows_ free chosen]
    simp
  · intro row chosen
    refine kept row fun now found => ?_
    rw [runKeyForWorkerCard_of_mem (mem_of_find?_eq_some chosen) (find?_some chosen)] at found
    cases found
    simp

omit [JsonNumber N]

theorem runEventsForKey_clean (frame : Frame visibility events db after)
    (clean : key ∉ namedKeys after (deltaOf events)) :
    runEventsForKey after key = runEventsForKey db key := by
  obtain ⟨_, log, named⟩ := frame.log
  rw [runEventsForKey, runEventsForKey, log, filter_append, append_right_eq_self, filter_eq_nil_iff]
  intro row among same
  refine clean (mem_append_left _ ?_)
  rw [deltaOf_eq]
  rw [beq_iff_eq] at same
  exact mem_flatMap.mpr ⟨_, named row among, mem_singleton.mpr same.symm⟩

theorem canceled_clean (frame : Frame visibility events db after)
    (clean : key ∉ namedKeys after (deltaOf events)) :
    (after.canceled.find? fun attempt => attempt.attemptId == key) =
      db.canceled.find? fun attempt => attempt.attemptId == key := by
  obtain ⟨added, canceled, named⟩ := frame.canceled
  rw [canceled, find?_append]
  have none : (added.find? fun attempt => attempt.attemptId == key) = none := by
    rw [find?_eq_none]
    intro attempt among same
    obtain ⟨_, logged, isKey⟩ := named attempt among
    refine clean (mem_append_right _ (mem_map.mpr ⟨attempt, ?_, by simpa using same⟩))
    rw [mem_filter, canceled, contains_iff_mem, deltaOf_eq]
    exact ⟨mem_append_right _ among, mem_flatMap.mpr ⟨_, logged, isKey⟩⟩
  rw [none, Option.or_none]

theorem isListed_iff : IsListed db visibility key ↔
    (listedCard db visibility key).isSome ∨
      ∃ row ∈ runEventsForKey db key, row.event.asks = true := by
  simp only [IsListed, runEventsForKey, mem_filter, beq_iff_eq, and_assoc]
  simp only [and_comm]

/-- **A key that no event names keeps its run.** -/
theorem runIn_clean [JsonNumber N] (frame : Frame visibility events db after)
    (shows_ : Shows (projectRuns db visibility) entries)
    (dirty : dirtyKeys after visibility (deltaOf events) entries = .ok keys) (clean : key ∉ keys) :
    runIn (projectRuns after visibility) key = runIn (projectRuns db visibility) key := by
  obtain ⟨shown, hidden⟩ := find_projectRuns db visibility key
  obtain ⟨shown', hidden'⟩ := find_projectRuns after visibility key
  by_cases reserved : isReservedRunKey key = true
  · rw [runIn, runIn, hidden, hidden']
    all_goals simp [runKeyIsVisible, reserved]
  · rw [Bool.not_eq_true] at reserved
    have cards := listedCard_clean frame shows_ reserved dirty clean
    have log := runEventsForKey_clean frame (namedKeys_subset dirty clean)
    have canceled := canceled_clean frame (namedKeys_subset dirty clean)
    have listed : IsListed after visibility key ↔ IsListed db visibility key := by
      rw [isListed_iff, isListed_iff, cards, log]
    have run : runOf after visibility key = runOf db visibility key := by
      rw [runOf, runOf, runWith, runWith, cards, log, canceled]
    rw [runIn, runIn]
    by_cases there : runKeyIsVisible key = true ∧ IsListed db visibility key
    · rw [shown there, shown' ⟨there.1, listed.mpr there.2⟩, run]
    · rw [hidden there, hidden' fun both => there ⟨both.1, listed.mp both.2⟩]

/-- An index of projected runs is keyed by attempts. -/
theorem Shows.current (shows_ : Shows runs entries) :
    runsIndexPredatesAttemptId entries = false := by
  rw [runsIndexPredatesAttemptId, loadRunsIndexValues, shows_.index]
  simp [runIndexEntry]

/-- The delta of a transaction shows the runs of the rows it leaves. -/
theorem applyDelta_shows [JsonNumber N] (frame : Frame visibility events db after)
    (shows_ : Shows (projectRuns db visibility) entries)
    (settled : ∀ key, Settled after visibility key)
    (applied : applyDelta after visibility (deltaOf events) entries = .ok entries') :
    Shows (projectRuns after visibility) entries' := by
  rw [applyDelta, shows_.current, Bool.and_false, if_neg (by decide)] at applied
  obtain ⟨keys, dirty, same⟩ := bind_eq_ok.mp applied
  cases same
  have others := fun key (clean : key ∉ keys) => runIn_clean frame shows_ dirty clean
  by_cases quiet : keys = []
  · have same : projectRuns after visibility = projectRuns db visibility :=
      projectRuns_ext fun key => others key (by simp [quiet])
    simpa only [quiet, isEmpty_nil, ↓reduceIte, same] using shows_
  · rw [if_neg (by simpa using quiet)]
    exact applyRunKeyDelta_shows shows_ others fun key _ =>
      (agrees_iff after visibility key).mpr (settled key)

end Keys

/-! ## Commits -/

theorem snapshot_shows (db : Database N) (visibility : CardVisibility) :
    Shows (projectRuns db visibility) (snapshot db visibility) :=
  insertRunEntries_shows (distinct_projectRuns db visibility)

theorem Commit.shows [JsonNumber N] {head next : Head N} (commit : Commit visibility head next)
    (shows_ : Shows (projectRuns head.db visibility) head.entries) :
    Shows (projectRuns next.db visibility) next.entries := by
  cases commit with
  | mk transaction settled applied =>
    exact applyDelta_shows transaction.frame shows_ settled applied

/-- **Runs by key and all runs.**  For every log, set of visible cards and canceled executions,
the projection by key gives the entry of the full projection exactly for the settled keys; and
along commits that leave every key settled, the files of the head tree are those of a snapshot
from scratch. -/
theorem incremental_runs [JsonNumber N] (visibility : CardVisibility) :
    (∀ (db : Database N) (key : Text),
      projectRunByKey db visibility key =
          ((projectRuns db visibility).find? fun run => run.attemptId == key) ↔
        isReservedRunKey key = true ∨
          (∀ row, workerCardForRunKey db visibility key = some row →
            idempotencyKeyFromPayload row.card.payload = some key) ∧
          ((workerCardForRunKey db visibility key).isSome ∨
            (∃ row ∈ db.events, row.event.asks = true ∧ row.idempotencyKey = key) ∨
            ∀ row ∈ db.events, row.idempotencyKey ≠ key)) ∧
    ∀ start head : Head N, Relation.ReflTransGen (Commit visibility) start head →
      start.entries = snapshot start.db visibility →
      head.entries = snapshot head.db visibility := by
  constructor
  · intro db key
    refine (agrees_iff db visibility key).trans (or_congr_right (and_congr_right fun carried => ?_))
    rw [(carried_iff db visibility key).mp carried]
    simp only [IsListed, or_assoc, runEventsForKey, filter_eq_nil_iff, beq_iff_eq]
  · intro start head run isSnapshot
    have shows_ : Shows (projectRuns head.db visibility) head.entries := by
      induction run with
      | refl => exact isSnapshot ▸ snapshot_shows start.db visibility
      | tail _ commit ih => exact commit.shows ih
    exact shows_.unique (snapshot_shows head.db visibility)

/-! ## A run known only by its verdict -/

def trialDatabase (events : List (TrackEvent NumberToken)) : Database NumberToken :=
  { cards := []
    announced := []
    events
    canceled := []
    distinctCards := nodup_nil
    distinctCanceled := nodup_nil }

def trialEvent (event : RunEvent) : TrackEvent NumberToken :=
  { id := 1
    atMs := 10
    actor := .agent "planner".toList
    scope := .track
    event
    idempotencyKey := "k".toList
    payload := .object [("result".toList, .object [("status".toList, .string "accepted".toList)])] }

/-- A log whose only event on a key is the planner's verdict: by key there is a run, in the full
list there is none. -/
theorem verdict_only_differs :
    ¬ ∀ (db : Database NumberToken) (visibility : CardVisibility) (key : Text),
      projectRunByKey db visibility key =
        (projectRuns db visibility).find? fun run => run.attemptId == key := by
  intro agrees
  have same := congrArg Option.isSome
    (agrees (trialDatabase [trialEvent .taskCompleted]) (.announcedOrInherited []) "k".toList)
  revert same
  decide +kernel

theorem trial_settled (key : Text) :
    Settled (trialDatabase [trialEvent .codexWorkerRequested]) (.announcedOrInherited []) key := by
  refine .inr ⟨nofun, ?_⟩
  by_cases here : key = "k".toList
  · exact .inl (.inr ⟨_, mem_singleton_self _, rfl, here.symm⟩)
  · refine .inr (filter_eq_nil_iff.mpr fun row among same => here ?_)
    rw [mem_singleton.mp among, beq_iff_eq] at same
    exact same.symm

def trialHead : Head NumberToken :=
  { db := trialDatabase []
    entries := snapshot (trialDatabase []) (.announcedOrInherited []) }

def trialNext : Head NumberToken :=
  { db := trialDatabase [trialEvent .codexWorkerRequested]
    entries := applyRunKeyDelta (trialDatabase [trialEvent .codexWorkerRequested])
      (.announcedOrInherited []) trialHead.entries ["k".toList] }

theorem trial_commits : Commit (.announcedOrInherited []) trialHead trialNext := by
  have write : Write (.announcedOrInherited []) trialHead.db
      [.run (trialEvent .codexWorkerRequested)] trialNext.db := .run _ rfl rfl rfl rfl
  have current : runsIndexPredatesAttemptId trialHead.entries = false :=
    (snapshot_shows _ _).current
  refine .mk (.cons write (.nil trialNext.db)) trial_settled ?_
  rw [applyDelta, current, Bool.and_false]
  rfl

/-- A request logged in a new track: the runs files of the commit are those of a snapshot. -/
theorem incremental_runs_trial :
    trialNext.entries = snapshot trialNext.db (.announcedOrInherited []) :=
  (incremental_runs (.announcedOrInherited [])).2 trialHead trialNext (.single trial_commits) rfl

end NeigeCalm.Runs
