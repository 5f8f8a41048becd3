import NeigeCalm.Library.Fallible
import NeigeCalm.Runs.Projection

/-!
# The runs files of a tree

The head tree of a track holds an index of its runs and two files for each.  A commit does not
project the runs again: the events of its transaction name the keys they may have changed, and
only those runs are projected, each by its key, and their files written over.
-/

namespace NeigeCalm.Runs

open Library List Std OrderedMap

variable {N : Type}

/-! ## Files -/

structure RunIndexEntry where
  /-- Absent in an index stored before runs were keyed by it. -/
  attemptId : Option Text
  status : RunStatus
  kind : RunKind
  verdict : Option (Text × Int)
  requestedAt : Option Int
  finishedAt : Option Int
  workerCardId : Option Text
deriving DecidableEq

def runIndexEntry (run : RunProjection N) : RunIndexEntry where
  attemptId := some run.attemptId
  status := run.status
  kind := run.kind
  verdict := run.verdict.map fun verdict => (verdict.status, verdict.atMs)
  requestedAt := run.requestedAt
  finishedAt := run.finishedAt
  workerCardId := run.workerCard.map Card.id

/-- The content of a file, as the value that is rendered. -/
inductive RunFile (N : Type) where
  | index (entries : List RunIndexEntry)
  | json (run : RunProjection N)
  | markdown (run : RunProjection N)

abbrev Entries (N : Type) := ExtTreeMap Text (RunFile N)

def indexPath : Text := "runs/index.json".toList

def jsonPath (key : Text) : Text := "runs/".toList ++ key ++ ".json".toList

def markdownPath (key : Text) : Text := "runs/".toList ++ key ++ ".md".toList

def putRun (entries : Entries N) (run : RunProjection N) : Entries N :=
  (entries.insert (jsonPath run.attemptId) (.json run)).insert (markdownPath run.attemptId)
    (.markdown run)

def insertRunEntries (entries : Entries N) (runs : List (RunProjection N)) : Entries N :=
  runs.foldl (fun entries run => if isReservedRunKey run.attemptId then entries
      else putRun entries run)
    (entries.insert indexPath (.index (runs.map runIndexEntry)))

/-- The files of a snapshot from scratch. -/
def snapshot (db : Database N) (visibility : CardVisibility) : Entries N :=
  insertRunEntries ∅ (projectRuns db visibility)

/-! ## Deltas -/

inductive Event (N : Type) where
  | cardAdded (card : Card N)
  | cardUpdated (card : Card N)
  | cardDeleted (id : Text)
  | workerSession (cardId : Text)
  | run (row : TrackEvent N)
  | planUpdated (changedKeys : List Text)
  | other

structure PathDelta where
  runKeys : List Text
  runCardIds : List Text
  runTaskKeys : List Text

def pathsChangedByEvent : Event N → PathDelta
  | .cardAdded card | .cardUpdated card =>
    ⟨(idempotencyKeyFromPayload card.payload).toList, [card.id], []⟩
  | .cardDeleted id => ⟨[], [id], []⟩
  | .workerSession cardId => ⟨[], [cardId], []⟩
  | .run row => ⟨[row.idempotencyKey], [], []⟩
  | .planUpdated changedKeys => ⟨[], [], changedKeys⟩
  | .other => ⟨[], [], []⟩

def PathDelta.merge (first second : PathDelta) : PathDelta where
  runKeys := first.runKeys ++ second.runKeys
  runCardIds := first.runCardIds ++ second.runCardIds
  runTaskKeys := first.runTaskKeys ++ second.runTaskKeys

def deltaOf (events : List (Event N)) : PathDelta :=
  events.foldl (fun delta event => delta.merge (pathsChangedByEvent event)) ⟨[], [], []⟩

def loadRunsIndexValues (entries : Entries N) : List RunIndexEntry :=
  match entries[indexPath]? with
  | some (.index values) => values
  | _ => []

def runsIndexPredatesAttemptId (entries : Entries N) : Bool :=
  (loadRunsIndexValues entries).any fun value => value.attemptId.isNone

def loadRunsIndexMap (entries : Entries N) : ExtTreeMap Text RunIndexEntry :=
  (loadRunsIndexValues entries).foldl
    (fun index value => match value.attemptId with
      | some key => index.insert key value
      | none => index)
    ∅

/-- The key under which the stored index shows a card. -/
def runKeyForWorkerCardInIndex (entries : Entries N) (cardId : Text) : Option Text :=
  ((loadRunsIndexMap entries).toList.find? fun entry =>
    entry.2.workerCardId == some cardId).map Prod.fst

/-- The keys that the events of a transaction name outright or through a canceled task. -/
def namedKeys (db : Database N) (delta : PathDelta) : List Text :=
  delta.runKeys ++
    (db.canceled.filter fun attempt => delta.runTaskKeys.contains attempt.key).map
      CanceledTaskAttempt.attemptId

section Deltas

variable [JsonNumber N]

/-- The key a card carries now.  A column that holds no text cannot be decoded. -/
def runKeyForWorkerCard (db : Database N) (visibility : CardVisibility) (cardId : Text) :
    Except SqlValue (Option Text) :=
  match db.cards.find? fun row => row.card.id == cardId && row.role == "worker".toList &&
    extractedKey row.card.payload != .null with
  | none => .ok none
  | some row =>
    if db.isVisible visibility row then
      match extractedKey row.card.payload with
      | .text key => .ok (some key)
      | value => .error value
    else .ok none

/-- One key of a delta: its run is projected again, into the index and its two files. -/
def applyRunKey (db : Database N) (visibility : CardVisibility)
    (state : ExtTreeMap Text RunIndexEntry × Entries N) (key : Text) :
    ExtTreeMap Text RunIndexEntry × Entries N :=
  if isReservedRunKey key then state
  else match projectRunByKey db visibility key with
    | some run => ((state.1.erase key).insert key (runIndexEntry run), putRun state.2 run)
    | none => (state.1.erase key, (state.2.erase (jsonPath key)).erase (markdownPath key))

def applyRunKeyDelta (db : Database N) (visibility : CardVisibility) (entries : Entries N)
    (runKeys : List Text) : Entries N :=
  let (index, entries) :=
    runKeys.foldl (applyRunKey db visibility) (loadRunsIndexMap entries, entries)
  entries.insert indexPath (.index (index.toList.map Prod.snd))

/-- The keys of a delta: those named, and those of its cards, by their rows now or by the stored
index. -/
def dirtyKeys (db : Database N) (visibility : CardVisibility) (delta : PathDelta)
    (entries : Entries N) : Except SqlValue (List Text) := do
  let cardKeys ← delta.runCardIds.mapM fun cardId => do
    let key ← runKeyForWorkerCard db visibility cardId
    return key.toList ++ (runKeyForWorkerCardInIndex entries cardId).toList
  return namedKeys db delta ++ cardKeys.flatten

def applyDelta (db : Database N) (visibility : CardVisibility) (delta : PathDelta)
    (entries : Entries N) : Except SqlValue (Entries N) :=
  if (!(namedKeys db delta).isEmpty || !delta.runCardIds.isEmpty) &&
      runsIndexPredatesAttemptId entries then
    .ok (insertRunEntries (entries.filter fun path _ => !("runs/".toList.isPrefixOf path))
      (projectRuns db visibility))
  else do
    let runKeys ← dirtyKeys db visibility delta entries
    return if runKeys.isEmpty then entries else applyRunKeyDelta db visibility entries runKeys

end Deltas

/-! ## Paths -/

theorem jsonPath_inj : jsonPath first = jsonPath second ↔ first = second :=
  ⟨fun same => append_cancel_left (append_cancel_right same), congrArg jsonPath⟩

theorem markdownPath_inj : markdownPath first = markdownPath second ↔ first = second :=
  ⟨fun same => append_cancel_left (append_cancel_right same), congrArg markdownPath⟩

theorem jsonPath_ne_markdownPath : jsonPath first ≠ markdownPath second := by
  intro same
  have json : (jsonPath first).getLast? = some 'n' := getLast?_append.trans rfl
  have markdown : (markdownPath second).getLast? = some 'd' := getLast?_append.trans rfl
  rw [same, markdown] at json
  revert json
  decide

theorem indexPath_eq : indexPath = jsonPath "index".toList := by decide

theorem jsonPath_ne_indexPath (free : isReservedRunKey key = false) : jsonPath key ≠ indexPath := by
  rw [indexPath_eq, Ne, jsonPath_inj]
  simpa [isReservedRunKey] using free

theorem markdownPath_ne_indexPath (key : Text) : markdownPath key ≠ indexPath := by
  rw [indexPath_eq]
  exact (jsonPath_ne_markdownPath).symm

/-! ## Files that show a list of runs -/

/-- The run of a key in a list. -/
def runIn (runs : List (RunProjection N)) (key : Text) : Option (RunProjection N) :=
  runs.find? fun run => run.attemptId == key

/-- The two files of each run, as `shown` says; nothing at other paths but the index. -/
structure ShowsFiles (shown : Text → Option (RunProjection N)) (entries : Entries N) : Prop where
  json : ∀ key, isReservedRunKey key = false → entries[jsonPath key]? = (shown key).map .json
  markdown : ∀ key, isReservedRunKey key = false →
    entries[markdownPath key]? = (shown key).map .markdown
  rest : ∀ path, path ≠ indexPath →
    (∀ key, isReservedRunKey key = false → path ≠ jsonPath key ∧ path ≠ markdownPath key) →
    entries[path]? = none

/-- The files are those of a list of runs. -/
structure Shows (runs : List (RunProjection N)) (entries : Entries N) : Prop where
  files : ShowsFiles (runIn runs) entries
  index : entries[indexPath]? = some (.index (runs.map runIndexEntry))

variable {entries : Entries N} {runs : List (RunProjection N)}

theorem Shows.unique (one : Shows runs first) (two : Shows runs second) : first = second := by
  apply ExtTreeMap.ext_getElem?
  intro path
  by_cases index : path = indexPath
  · rw [index, one.index, two.index]
  · by_cases file : ∃ key, isReservedRunKey key = false ∧
        (path = jsonPath key ∨ path = markdownPath key)
    · obtain ⟨key, free, rfl | rfl⟩ := file
      · rw [one.files.json key free, two.files.json key free]
      · rw [one.files.markdown key free, two.files.markdown key free]
    · have nowhere : ∀ key, isReservedRunKey key = false →
          path ≠ jsonPath key ∧ path ≠ markdownPath key := by
        intro key free
        constructor <;> intro same
        · exact file ⟨key, free, .inl same⟩
        · exact file ⟨key, free, .inr same⟩
      rw [one.files.rest path index nowhere, two.files.rest path index nowhere]

theorem putRun_get :
    (putRun entries run)[path]? =
      if path = markdownPath run.attemptId then some (.markdown run)
      else if path = jsonPath run.attemptId then some (.json run)
      else entries[path]? := by
  rw [putRun, get_insert, get_insert]

/-- A run is put into the files of its own key. -/
theorem ShowsFiles.put (shows_ : ShowsFiles shown entries)
    (free : isReservedRunKey run.attemptId = false) :
    ShowsFiles (fun key => if key = run.attemptId then some run else shown key)
      (putRun entries run) where
  json key keyFree := by
    rw [putRun_get, if_neg (jsonPath_ne_markdownPath)]
    simp only [jsonPath_inj]
    split
    · rfl
    · exact shows_.json key keyFree
  markdown key keyFree := by
    rw [putRun_get]
    simp only [markdownPath_inj]
    split
    · rfl
    · rw [if_neg (jsonPath_ne_markdownPath).symm]
      exact shows_.markdown key keyFree
  rest path index nowhere := by
    rw [putRun_get, if_neg (nowhere _ free).2, if_neg (nowhere _ free).1]
    exact shows_.rest path index nowhere

/-- The files of a key are removed. -/
theorem ShowsFiles.drop (shows_ : ShowsFiles shown entries) (gone : Text) :
    ShowsFiles (fun key => if key = gone then none else shown key)
      ((entries.erase (jsonPath gone)).erase (markdownPath gone)) where
  json key keyFree := by
    rw [get_erase, if_neg (jsonPath_ne_markdownPath), get_erase]
    simp only [jsonPath_inj]
    split
    · rfl
    · exact shows_.json key keyFree
  markdown key keyFree := by
    rw [get_erase]
    simp only [markdownPath_inj]
    split
    · rfl
    · rw [get_erase, if_neg (jsonPath_ne_markdownPath).symm]
      exact shows_.markdown key keyFree
  rest path index nowhere := by
    rw [get_erase, get_erase]
    split
    · rfl
    · split
      · rfl
      · exact shows_.rest path index nowhere

theorem ShowsFiles.insert_index (shows_ : ShowsFiles shown entries) (values : List RunIndexEntry) :
    ShowsFiles shown (entries.insert indexPath (.index values)) where
  json key keyFree := by
    rw [get_insert, if_neg (jsonPath_ne_indexPath keyFree)]
    exact shows_.json key keyFree
  markdown key keyFree := by
    rw [get_insert, if_neg (markdownPath_ne_indexPath key)]
    exact shows_.markdown key keyFree
  rest path index nowhere := by
    rw [get_insert, if_neg index]
    exact shows_.rest path index nowhere

theorem putRun_index (entries : Entries N) (free : isReservedRunKey run.attemptId = false) :
    (putRun entries run)[indexPath]? = entries[indexPath]? := by
  rw [putRun_get, if_neg (markdownPath_ne_indexPath _).symm,
    if_neg (jsonPath_ne_indexPath free).symm]

/-! ## A snapshot shows the runs -/

theorem runIn_projectRuns (db : Database N) (visibility : CardVisibility) :
    ∃ keys : List Text, keys.Pairwise (fun first second => compare first second = .lt) ∧
      (∀ key ∈ keys, isReservedRunKey key = false) ∧
      projectRuns db visibility = keys.map (runOf db visibility) ∧
      ∀ key run, runIn (projectRuns db visibility) key = some run ↔
        key ∈ keys ∧ run = runOf db visibility key := by
  obtain ⟨keys, sorted, listed, runs⟩ := projectRuns_eq db visibility
  refine ⟨keys, sorted, fun key among => ?_, runs, fun key run => ?_⟩
  · have visible := ((listed key).mp among).1
    simpa [runKeyIsVisible] using visible
  · obtain ⟨shown, hidden⟩ := find_projectRuns db visibility key
    rw [runIn, listed key]
    by_cases there : runKeyIsVisible key = true ∧ IsListed db visibility key
    · rw [shown there]
      simp [there, eq_comm]
    · rw [hidden there]
      simp only [there, false_and, reduceCtorEq]

theorem projectRuns_ext
    (same : ∀ key, runIn (projectRuns db visibility) key = runIn (projectRuns db' visibility) key) :
    projectRuns db visibility = projectRuns db' visibility := by
  obtain ⟨keys, sorted, -, runs, found⟩ := runIn_projectRuns db visibility
  obtain ⟨keys', sorted', -, runs', found'⟩ := runIn_projectRuns db' visibility
  have members : ∀ key, key ∈ keys ↔ key ∈ keys' := by
    intro key
    constructor
    · intro among
      exact ((found' key _).mp ((same key).symm.trans ((found key _).mpr ⟨among, rfl⟩))).1
    · intro among
      exact ((found key _).mp ((same key).trans ((found' key _).mpr ⟨among, rfl⟩))).1
  obtain rfl := eq_of_sorted sorted sorted' members
  rw [runs, runs']
  apply map_congr_left
  intro key among
  exact ((found' key _).mp ((same key).symm.trans ((found key _).mpr ⟨among, rfl⟩))).2

/-- The runs have distinct ids, none of them reserved. -/
structure Distinct (runs : List (RunProjection N)) : Prop where
  nodup : (runs.map RunProjection.attemptId).Nodup
  free : ∀ run ∈ runs, isReservedRunKey run.attemptId = false

theorem distinct_projectRuns (db : Database N) (visibility : CardVisibility) :
    Distinct (projectRuns db visibility) := by
  obtain ⟨keys, sorted, free, runs, -⟩ := runIn_projectRuns db visibility
  have ids : (projectRuns db visibility).map RunProjection.attemptId = keys := by
    rw [runs, map_map]
    exact map_id keys
  refine ⟨?_, fun run among => ?_⟩
  · rw [ids]
    exact nodup_of_sorted sorted
  · exact free _ (ids ▸ mem_map_of_mem among)

theorem runIn_cons :
    runIn (run :: runs) key = if key = run.attemptId then some run else runIn runs key := by
  rw [runIn]
  by_cases same : key = run.attemptId
  · rw [find?_cons_of_pos (by simp [same]), if_pos same]
  · rw [find?_cons_of_neg (by simp [Ne.symm same]), if_neg same, runIn]

/-- A run that heads a list of distinct ids is not found further on. -/
theorem Distinct.tail (distinct : Distinct (run :: runs)) :
    Distinct runs ∧ isReservedRunKey run.attemptId = false ∧ runIn runs run.attemptId = none := by
  obtain ⟨nodup, free⟩ := distinct
  rw [map_cons, nodup_cons] at nodup
  refine ⟨⟨nodup.2, fun other among => free other (mem_cons_of_mem _ among)⟩,
    free run mem_cons_self, ?_⟩
  rw [runIn, find?_eq_none]
  intro other among same
  exact nodup.1 (mem_map.mpr ⟨other, among, by simpa using same⟩)

theorem foldl_putRun (distinct : Distinct runs) (shows_ : ShowsFiles shown entries) :
    ShowsFiles (fun key => (runIn runs key).or (shown key))
      (runs.foldl (fun entries run => if isReservedRunKey run.attemptId then entries
        else putRun entries run) entries) ∧
    (runs.foldl (fun entries run => if isReservedRunKey run.attemptId then entries
        else putRun entries run) entries)[indexPath]? = entries[indexPath]? := by
  induction runs generalizing shown entries with
  | nil => exact ⟨by simpa [runIn] using shows_, rfl⟩
  | cons run _ ih =>
    obtain ⟨distinct, free, absent⟩ := distinct.tail
    obtain ⟨files, index⟩ := ih distinct (shows_.put free)
    simp only [foldl_cons, free, Bool.false_eq_true, ↓reduceIte]
    refine ⟨?_, index.trans (putRun_index entries free)⟩
    convert files using 2 with key
    rw [runIn_cons]
    by_cases same : key = run.attemptId
    · simp [same, absent]
    · simp [same]

theorem insertRunEntries_shows (distinct : Distinct runs) :
    Shows runs (insertRunEntries ∅ runs) := by
  have none : ShowsFiles (fun _ => none) (∅ : Entries N) := by
    constructor <;> simp
  obtain ⟨files, index⟩ := foldl_putRun distinct (none.insert_index (runs.map runIndexEntry))
  simp only [Option.or_none] at files
  refine ⟨files, index.trans ?_⟩
  rw [get_insert, if_pos rfl]

/-! ## What a delta does -/

theorem foldl_index (distinct : Distinct runs) (index : ExtTreeMap Text RunIndexEntry)
    (key : Text) :
    ((runs.map runIndexEntry).foldl
      (fun index value => match value.attemptId with
        | some key => index.insert key value
        | none => index) index)[key]? = ((runIn runs key).map runIndexEntry).or index[key]? := by
  induction runs generalizing index with
  | nil => simp [runIn]
  | cons run _ ih =>
    obtain ⟨distinct, -, absent⟩ := distinct.tail
    rw [map_cons, foldl_cons, ih distinct, runIn_cons]
    simp only [runIndexEntry, get_insert]
    by_cases same : key = run.attemptId
    · simp [same, absent, runIndexEntry]
    · simp [same]

theorem Shows.loadRunsIndexMap_get (shows_ : Shows runs entries) (distinct : Distinct runs)
    (key : Text) : (loadRunsIndexMap entries)[key]? = (runIn runs key).map runIndexEntry := by
  rw [loadRunsIndexMap, loadRunsIndexValues, shows_.index]
  simpa using foldl_index distinct ∅ key

/-- Index and files show the same runs, none under a reserved key. -/
structure Synced (shown : Text → Option (RunProjection N))
    (state : ExtTreeMap Text RunIndexEntry × Entries N) : Prop where
  files : ShowsFiles shown state.2
  index : ∀ key, state.1[key]? = (shown key).map runIndexEntry
  reserved : ∀ key, isReservedRunKey key = true → shown key = none

section Apply

variable [JsonNumber N]

theorem projectRunByKey_attemptId {db : Database N}
    (found : projectRunByKey db visibility key = some run) :
    run.attemptId = key := by
  rw [projectRunByKey_eq] at found
  split at found
  · cases found
  · rw [← Option.some.inj found]
    rfl

theorem projectRunByKey_reserved {db : Database N} (reserved : isReservedRunKey key = true) :
    projectRunByKey db visibility key = none := by
  rw [projectRunByKey_eq, if_pos (.inl reserved)]

/-- One key of a delta replaces what is shown for that key. -/
theorem Synced.applyRunKey (synced : Synced shown state) (db : Database N)
    (visibility : CardVisibility) (key : Text) :
    Synced (fun other => if other = key then projectRunByKey db visibility other else shown other)
      (applyRunKey db visibility state key) := by
  have hidden : ∀ other, isReservedRunKey other = true →
      (if other = key then projectRunByKey db visibility other else shown other) = none := by
    intro other reserved
    rw [projectRunByKey_reserved reserved, synced.reserved other reserved, ite_self]
  rw [Runs.applyRunKey]
  by_cases reserved : isReservedRunKey key = true
  · rw [if_pos reserved]
    have same : (fun other => if other = key then projectRunByKey db visibility other
        else shown other) = shown := by
      funext other
      split
      next isKey =>
        rw [isKey, projectRunByKey_reserved reserved, synced.reserved key reserved]
      next => rfl
    rw [same]
    exact synced
  · rw [if_neg reserved]
    cases found : projectRunByKey db visibility key with
    | none =>
      refine ⟨?_, fun other => ?_, hidden⟩
      · convert synced.files.drop key using 2 with other
        split
        next isKey => rw [isKey, found]
        next => rfl
      · rw [get_erase, synced.index]
        split
        next isKey => rw [isKey, found, Option.map_none]
        next => rfl
    | some run =>
      have isKey := projectRunByKey_attemptId found
      refine ⟨?_, fun other => ?_, hidden⟩
      · have free : isReservedRunKey run.attemptId = false := by simpa [isKey] using reserved
        have files := synced.files.put free
        rw [isKey] at files
        convert files using 2 with other
        split
        next same => rw [same, found]
        next => rfl
      · rw [get_insert, get_erase, synced.index]
        split
        next same => rw [same, found, Option.map_some]
        next => rfl

theorem Synced.foldl (synced : Synced shown state) (db : Database N) (visibility : CardVisibility)
    (keys : List Text) :
    Synced (fun other => if other ∈ keys then projectRunByKey db visibility other
      else shown other) (keys.foldl (Runs.applyRunKey db visibility) state) := by
  induction keys generalizing shown state with
  | nil => simpa using synced
  | cons key rest ih =>
    rw [foldl_cons]
    convert ih (synced.applyRunKey db visibility key) using 2 with other
    by_cases later : other ∈ rest
    · simp [later]
    · by_cases same : other = key <;> simp [later, same]

/-- **A delta shows the runs of the new rows.**  It suffices that the runs of the other keys did
not change and that the projections agree on the keys it names. -/
theorem applyRunKeyDelta_shows {db db' : Database N} {keys : List Text}
    (shows_ : Shows (projectRuns db visibility) entries) (others : ∀ key, key ∉ keys →
      runIn (projectRuns db' visibility) key = runIn (projectRuns db visibility) key)
    (agrees : ∀ key ∈ keys, Agrees db' visibility key) :
    Shows (projectRuns db' visibility) (applyRunKeyDelta db' visibility entries keys) := by
  have distinct := distinct_projectRuns db visibility
  have start : Synced (runIn (projectRuns db visibility)) (loadRunsIndexMap entries, entries) := by
    refine ⟨shows_.files, shows_.loadRunsIndexMap_get distinct, fun key reserved => ?_⟩
    obtain ⟨keys, -, free, -, found⟩ := runIn_projectRuns db visibility
    rw [Option.eq_none_iff_forall_ne_some]
    intro run isRun
    cases (free key ((found key run).mp isRun).1).symm.trans reserved
  have synced := start.foldl db' visibility keys
  have target : (fun other => if other ∈ keys then projectRunByKey db' visibility other
      else runIn (projectRuns db visibility) other) = runIn (projectRuns db' visibility) := by
    funext other
    split
    next named => exact agrees other named
    next => exact (others other ‹_›).symm
  rw [target] at synced
  refine ⟨synced.files.insert_index _, ?_⟩
  rw [applyRunKeyDelta, get_insert, if_pos rfl]
  obtain ⟨_, sorted, -, runs, found⟩ := runIn_projectRuns db' visibility
  have values := toList_eq_map (f := fun key => runIndexEntry (runOf db' visibility key))
    sorted (m := (keys.foldl (Runs.applyRunKey db' visibility)
      (loadRunsIndexMap entries, entries)).1) (by
    intro key value
    rw [synced.index, Option.map_eq_some_iff]
    constructor
    · rintro ⟨run, isRun, rfl⟩
      obtain ⟨among, rfl⟩ := (found key run).mp isRun
      exact ⟨among, rfl⟩
    · rintro ⟨among, rfl⟩
      exact ⟨_, (found key _).mpr ⟨among, rfl⟩, rfl⟩)
  rw [values, runs, map_map, map_map]
  rfl

end Apply

end NeigeCalm.Runs
