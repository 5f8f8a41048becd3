import NeigeCalm.Library.Fallible
import NeigeCalm.Vcs.Store
import NeigeCalm.Worker

/-!
# Pruning the history of a track

The newest commits, and the commits that a live session or a reader of the report still refers
to, are protected; every other commit of the track that is older than all of these is deleted.
Whether that cuts the chain of parents depends on the creation times: `history_kept_iff`.
-/

namespace NeigeCalm.Vcs

open Library List Std Fallible OrderedMap Store Ancestry
open Option (isSome_iff_exists isSome_map map_eq_some_iff map_some)

/-! ## What is protected -/

structure HarnessHistoryEndpoints where
  lastSeenHead : Option Text
  issuedTurnHead : Option Text
deriving DecidableEq

inductive HistoryRef where
  | commit (hash : Text)
  | unavailable
deriving DecidableEq

structure WorkerSession where
  trackId : Text
  state : WorkerSessionState
  provider : WorkerProviderKind
  contract : WorkerContract
  /-- `handle_state_json`. -/
  handleState : Option Text
deriving DecidableEq

/-- A session whose document may hold endpoints of the track's history. -/
def WorkerSession.concerns (session : WorkerSession) (trackId : Text) : Bool :=
  session.trackId == trackId && session.state.isActive &&
    !(session.provider == .claude && session.contract == .executor)

/-- What a reader of a report knows, by the track of the report. -/
structure KnowledgeRow where
  trackId : Text
  historyRef : Text
deriving DecidableEq

structure Database where
  store : Store
  sessions : List WorkerSession
  knowledge : List KnowledgeRow

/-- The decoders of the two kinds of documents. -/
structure Codec where
  fromCheckpoint : Text → Option HarnessHistoryEndpoints
  historyRef : Text → Option HistoryRef

def Store.loadCommitRecordForTrack (store : Store) (trackId hash : Text) : Option CommitRecord :=
  store.commits[hash]?.filter fun record => record.trackId == trackId

/-- The commits a session's document names, or nothing when it cannot be read. -/
def Codec.sessionEndpoints (codec : Codec) (session : WorkerSession) : Option (List Text) :=
  match session.handleState with
  | none => some []
  | some json => (codec.fromCheckpoint json).map fun endpoints =>
    endpoints.lastSeenHead.toList ++ endpoints.issuedTurnHead.toList

def Codec.knowledgeEndpoints (codec : Codec) (json : Text) : Option (List Text) :=
  (codec.historyRef json).map fun
    | .commit hash => [hash]
    | .unavailable => []

def Store.loadAll (store : Store) (trackId : Text) (hashes : List Text) :
    Option (List (Text × CommitRecord)) :=
  hashes.mapM fun hash => (store.loadCommitRecordForTrack trackId hash).map (hash, ·)

/-- What the documents of the live sessions and of the readers of the report name. -/
def Database.documents (db : Database) (codec : Codec) (trackId : Text) :
    List (Option (List Text)) :=
  (db.sessions.filter (·.concerns trackId)).map codec.sessionEndpoints ++
    ((db.knowledge.filter (·.trackId == trackId)).map KnowledgeRow.historyRef).dedup.map
      codec.knowledgeEndpoints

/-- Nothing when a document cannot be read or a commit is absent: the prune is skipped. -/
def Database.activeDiffEndpointCommits (db : Database) (codec : Codec) (trackId : Text) :
    Option (List (Text × CommitRecord)) :=
  ((db.documents codec trackId).mapM fun (document : Option (List Text)) =>
    document.bind (db.store.loadAll trackId)).map flatten

/-! ## The prune -/

/-- The newest commits from `cursor`, with their times; nothing when the head itself is gone. -/
def Store.newest (store : Store) (trackId : Text) :
    Nat → Option Text → ExtTreeMap Text Int → Option (ExtTreeMap Text Int)
  | 0, _, held => some held
  | _ + 1, none, held => some held
  | keep + 1, some hash, held =>
    match store.loadCommitRecordForTrack trackId hash with
    | none => if held.isEmpty then none else some held
    | some record =>
      let grown := held.insert hash record.createdAt
      if held.contains hash then some grown
      else store.newest trackId keep record.parentHash grown

/-- The rows the delete selects. -/
def Store.doomed (store : Store) (trackId : Text) (floor : Int)
    (held : ExtTreeMap Text Int) : List Text :=
  (store.commits.toList.filter fun row =>
    row.2.trackId == trackId && decide (row.2.createdAt < floor) && !held.contains row.1).map
      Prod.fst

/-- The store afterwards and the number of commits deleted. -/
def Database.pruneTrackHistory (db : Database) (codec : Codec) (trackId : Text) (keep : Nat) :
    Store × Nat :=
  match db.store.refs[trackId]? with
  | none => (db.store, 0)
  | some head =>
    match db.store.newest trackId (max keep 1) (some head) ∅ with
    | none => (db.store, 0)
    | some newest =>
      match db.activeDiffEndpointCommits codec trackId with
      | none => (db.store, 0)
      | some records =>
        let held := records.foldl (fun held row => held.insert row.1 row.2.createdAt) newest
        match (held.toList.map Prod.snd).min? with
        | none => (db.store, 0)
        | some floor =>
          let gone := db.store.doomed trackId floor held
          (db.store.deleteCommits gone, gone.length)

/-! ## What pruning is for -/

def Store.trackParent (store : Store) (trackId hash : Text) : Option (Option Text) :=
  (store.loadCommitRecordForTrack trackId hash).map CommitRecord.parentHash

/-- The commit stands at a depth of the parent chain from the head of its track. -/
def Store.AtDepth (store : Store) (trackId : Text) (depth : Nat) (hash : Text) : Prop :=
  ∃ head, store.refs[trackId]? = some head ∧
    nth (store.trackParent trackId) depth head = some hash

/-- A live session or a reader of the report refers to the commit. -/
def Database.Endpoint (db : Database) (codec : Codec) (trackId hash : Text) : Prop :=
  ∃ hashes, some hashes ∈ db.documents codec trackId ∧ hash ∈ hashes

/-- Every document can be read and every commit it names is there. -/
structure Database.Resolvable (db : Database) (codec : Codec) (trackId : Text) : Prop where
  readable : none ∉ db.documents codec trackId
  stored : ∀ hash, db.Endpoint codec trackId hash →
    (db.store.loadCommitRecordForTrack trackId hash).isSome = true

/-- The commit and all it names are as before. -/
def Store.Keeps (before after : Store) (hash : Text) : Prop :=
  after.commits[hash]? = before.commits[hash]?

/-- The newest commits and the chain down to every endpoint are kept, the endpoints and their
trees can be reached, and nothing happens when an endpoint is not known. -/
structure Database.HistoryKept (db : Database) (codec : Codec) (trackId : Text) (keep : Nat)
    (after : Store) : Prop where
  newest : ∀ depth < max keep 1, ∀ hash, db.store.AtDepth trackId depth hash →
    db.store.Keeps after hash
  spans : ∀ depth endpoint, db.Endpoint codec trackId endpoint →
    db.store.AtDepth trackId depth endpoint → ∀ near ≤ depth, ∀ hash,
      db.store.AtDepth trackId near hash → db.store.Keeps after hash
  reached : ∀ depth endpoint, db.Endpoint codec trackId endpoint →
    db.store.AtDepth trackId depth endpoint → after.AtDepth trackId depth endpoint ∧
      ∀ record, db.store.commits[endpoint]? = some record →
        record.treeHash ∈ after.reachableTreeHashes
  skipped : ¬ db.Resolvable codec trackId → after = db.store

/-- One of the commits the prune sets out to protect. -/
def Database.Protected (db : Database) (codec : Codec) (trackId : Text) (keep : Nat)
    (hash : Text) : Prop :=
  (∃ depth < max keep 1, db.store.AtDepth trackId depth hash) ∨ db.Endpoint codec trackId hash

/-- A protected commit is no newer than this one. -/
def Database.Guarded (db : Database) (codec : Codec) (trackId : Text) (keep : Nat)
    (record : CommitRecord) : Prop :=
  ∃ guard older, db.Protected codec trackId keep guard ∧
    db.store.loadCommitRecordForTrack trackId guard = some older ∧
    older.createdAt ≤ record.createdAt

/-- No commit between the head and an endpoint is older than every protected commit. -/
def Database.SpansCovered (db : Database) (codec : Codec) (trackId : Text) (keep : Nat) : Prop :=
  db.Resolvable codec trackId →
    ∀ depth endpoint, db.Endpoint codec trackId endpoint →
      db.store.AtDepth trackId depth endpoint → ∀ near ≤ depth, ∀ hash record,
        db.store.AtDepth trackId near hash →
        db.store.loadCommitRecordForTrack trackId hash = some record →
          db.Guarded codec trackId keep record

/-! ## The endpoints -/

variable {hash : Text} {held : ExtTreeMap Text Int} {store : Store}

theorem Store.load_eq_some :
    store.loadCommitRecordForTrack trackId hash = some record ↔
      store.commits[hash]? = some record ∧ record.trackId = trackId := by
  rw [loadCommitRecordForTrack, Option.filter_eq_some_iff, beq_iff_eq]

theorem Store.isSome_loadAll :
    (store.loadAll trackId hashes).isSome = true ↔
      ∀ hash ∈ hashes, (store.loadCommitRecordForTrack trackId hash).isSome = true := by
  rw [loadAll, isSome_mapM]
  simp only [isSome_map]

theorem Store.mem_loadAll (all : store.loadAll trackId hashes = some rows) :
    (hash, record) ∈ rows ↔
      hash ∈ hashes ∧ store.loadCommitRecordForTrack trackId hash = some record := by
  rw [mem_of_mapM all]
  constructor
  · rintro ⟨_, among, isRow⟩
    obtain ⟨_, loaded, same⟩ := map_eq_some_iff.mp isRow
    cases same
    exact ⟨among, loaded⟩
  · rintro ⟨among, loaded⟩
    exact ⟨hash, among, by rw [loaded, map_some]⟩

theorem Database.isSome_activeDiffEndpointCommits {db : Database} :
    (db.activeDiffEndpointCommits codec trackId).isSome = true ↔ db.Resolvable codec trackId := by
  rw [activeDiffEndpointCommits, isSome_map, isSome_mapM]
  constructor
  · intro all
    constructor
    · intro unread
      exact absurd (all none unread) (by simp)
    · rintro hash ⟨hashes, isDocument, named⟩
      exact isSome_loadAll.mp (all (some hashes) isDocument) hash named
  · intro resolvable document isDocument
    cases document with
    | none => exact absurd isDocument resolvable.readable
    | some hashes =>
      exact isSome_loadAll.mpr fun hash named =>
        resolvable.stored hash ⟨hashes, isDocument, named⟩

theorem Database.mem_activeDiffEndpointCommits {db : Database}
    (found : db.activeDiffEndpointCommits codec trackId = some records) :
    (hash, record) ∈ records ↔
      db.Endpoint codec trackId hash ∧
        db.store.loadCommitRecordForTrack trackId hash = some record := by
  obtain ⟨groups, all, rfl⟩ := map_eq_some_iff.mp found
  rw [mem_flatten]
  constructor
  · rintro ⟨rows, isGroup, among⟩
    obtain ⟨_, isDocument, loaded⟩ := (mem_of_mapM all).mp isGroup
    obtain ⟨hashes, rfl, loaded⟩ := Option.bind_eq_some_iff.mp loaded
    obtain ⟨named, isRecord⟩ := (mem_loadAll loaded).mp among
    exact ⟨⟨hashes, isDocument, named⟩, isRecord⟩
  · rintro ⟨⟨_, isDocument, named⟩, isRecord⟩
    have some_ := isSome_mapM.mp (isSome_iff_exists.mpr ⟨groups, all⟩) _ isDocument
    obtain ⟨rows, loaded⟩ := isSome_iff_exists.mp some_
    exact ⟨rows, (mem_of_mapM all).mpr ⟨_, isDocument, loaded⟩,
      (mem_loadAll loaded).mpr ⟨named, isRecord⟩⟩

/-! ## The newest commits -/

/-- The time of a commit of the track. -/
def Store.timeOf (store : Store) (trackId hash : Text) : Option Int :=
  (store.loadCommitRecordForTrack trackId hash).map CommitRecord.createdAt

/-- A commit of the track at a depth under `cursor`. -/
def Store.Under (store : Store) (trackId : Text) (cursor : Option Text) (depth : Nat)
    (hash : Text) : Prop :=
  ∃ start, cursor = some start ∧ nth (store.trackParent trackId) depth start = some hash

theorem Store.trackParent_eq_some :
    store.trackParent trackId hash = some parent ↔ ∃ record,
      store.loadCommitRecordForTrack trackId hash = some record ∧ record.parentHash = parent :=
  map_eq_some_iff

theorem Store.Under.loaded (under : store.Under trackId cursor depth hash) :
    ∃ record, store.loadCommitRecordForTrack trackId hash = some record := by
  obtain ⟨_, rfl, up⟩ := under
  have stored := nth_stored up
  rw [trackParent, isSome_map] at stored
  exact isSome_iff_exists.mp stored

theorem Store.not_under (missing : store.loadCommitRecordForTrack trackId start = none) :
    ¬ store.Under trackId (some start) depth hash := by
  rintro ⟨_, same, up⟩
  cases same
  have stored := nth_start up
  rw [trackParent, missing] at stored
  cases stored

theorem Store.under_zero (loaded : store.loadCommitRecordForTrack trackId start = some record) :
    store.Under trackId (some start) 0 hash ↔ hash = start := by
  constructor
  · rintro ⟨_, same, up⟩
    cases same
    exact (nth_zero.mp up).1.symm
  · rintro rfl
    exact ⟨hash, rfl, nth_zero.mpr ⟨rfl, by rw [trackParent, loaded]; rfl⟩⟩

theorem Store.under_succ (loaded : store.loadCommitRecordForTrack trackId start = some record) :
    store.Under trackId (some start) (depth + 1) hash ↔
      store.Under trackId record.parentHash depth hash := by
  constructor
  · rintro ⟨_, same, up⟩
    cases same
    obtain ⟨parent, isParent, up⟩ := nth_succ.mp up
    rw [trackParent, loaded, map_some] at isParent
    exact ⟨parent, Option.some.inj isParent, up⟩
  · rintro ⟨parent, isParent, up⟩
    exact ⟨start, rfl, nth_succ.mpr
      ⟨parent, by rw [trackParent, loaded, map_some, isParent], up⟩⟩

/-- What the walk holds, and where it stands. -/
structure Store.Walked (store : Store) (trackId : Text) (cursor : Option Text)
    (held : ExtTreeMap Text Int) : Prop where
  times : ∀ hash time, held[hash]? = some time → store.timeOf trackId hash = some time
  closed : ∀ hash ∈ held, ∀ record, store.loadCommitRecordForTrack trackId hash = some record →
    ∀ parent, record.parentHash = some parent → parent ∈ held ∨ cursor = some parent

/-- A walk that comes back to a commit it holds has all there is. -/
theorem Store.Walked.mem_of_back (walked : store.Walked trackId cursor held)
    (back : ∀ hash, cursor = some hash → hash ∈ held) (within : start ∈ held)
    (under : store.Under trackId (some start) depth hash) : hash ∈ held := by
  induction depth generalizing start with
  | zero =>
    obtain ⟨_, same, up⟩ := under
    cases same
    exact (nth_zero.mp up).1 ▸ within
  | succ _ ih =>
    cases loaded : store.loadCommitRecordForTrack trackId start with
    | none => exact absurd under (not_under loaded)
    | some record =>
      obtain ⟨parent, isParent, up⟩ := (under_succ loaded).mp under
      rcases walked.closed start within record loaded parent isParent with here | next
      · exact ih here ⟨parent, rfl, up⟩
      · exact ih (back parent next) ⟨parent, rfl, up⟩

/-- The walk adds the commits down to the depth, and nothing else. -/
theorem Store.newest_spec (walked : store.Walked trackId cursor held)
    (result : store.newest trackId keep cursor held = some held') :
    (∀ hash time, held'[hash]? = some time → store.timeOf trackId hash = some time) ∧
    ∀ hash, hash ∈ held' ↔ hash ∈ held ∨ ∃ depth < keep, store.Under trackId cursor depth hash := by
  induction keep generalizing cursor held with
  | zero =>
    cases cursor <;> cases result <;> exact ⟨walked.times, fun hash => by simp⟩
  | succ keep ih =>
    cases cursor with
    | none =>
      cases result
      refine ⟨walked.times, fun hash => ⟨.inl, ?_⟩⟩
      rintro (here | ⟨_, _, _, impossible, _⟩)
      · exact here
      · cases impossible
    | some start =>
      rw [newest] at result
      cases loaded : store.loadCommitRecordForTrack trackId start with
      | none =>
        rw [loaded] at result
        dsimp only at result
        split at result
        next => cases result
        next =>
          cases result
          refine ⟨walked.times, fun hash => ⟨.inl, ?_⟩⟩
          rintro (here | ⟨depth, _, under⟩)
          · exact here
          · exact absurd under (not_under loaded)
      | some record =>
        rw [loaded] at result
        dsimp only at result
        have isTime : store.timeOf trackId start = some record.createdAt := by
          rw [timeOf, loaded, map_some]
        have grown : store.Walked trackId record.parentHash
          (held.insert start record.createdAt) := by
          refine ⟨fun hash time isHeld => ?_, fun hash isHeld found isFound parent isParent => ?_⟩
          · rw [get_insert] at isHeld
            split at isHeld
            next same => rw [same, isTime, isHeld]
            next => exact walked.times hash time isHeld
          · rcases (mem_insert held start hash _).mp isHeld with same | before
            · rw [same, loaded] at isFound
              cases isFound
              exact .inr isParent
            · refine .inl ((mem_insert held start parent _).mpr ?_)
              rcases walked.closed hash before found isFound parent isParent with here | next
              · exact .inr here
              · exact .inl (Option.some.inj next).symm
        split at result
        next known =>
          rw [ExtTreeMap.contains_iff_mem] at known
          cases result
          refine ⟨grown.times, fun hash => ?_⟩
          rw [mem_insert]
          constructor
          · rintro (same | before)
            · exact .inl (same ▸ known)
            · exact .inl before
          · rintro (before | ⟨depth, _, under⟩)
            · exact .inr before
            · refine .inr (walked.mem_of_back ?_ known under)
              intro other same
              exact Option.some.inj same ▸ known
        next =>
          obtain ⟨times, members⟩ := ih grown result
          refine ⟨times, fun hash => ?_⟩
          rw [members, mem_insert]
          constructor
          · rintro ((same | before) | ⟨depth, bound, under⟩)
            · exact .inr ⟨0, Nat.succ_pos keep, (under_zero loaded).mpr same⟩
            · exact .inl before
            · exact .inr ⟨depth + 1, Nat.succ_lt_succ bound, (under_succ loaded).mpr under⟩
          · rintro (before | ⟨depth, bound, under⟩)
            · exact .inl (.inr before)
            · cases depth with
              | zero => exact .inl (.inl ((under_zero loaded).mp under))
              | succ depth =>
                exact .inr ⟨depth, Nat.lt_of_succ_lt_succ bound, (under_succ loaded).mp under⟩

theorem Store.newest_ne_none (some_ : held.isEmpty = false) :
    store.newest trackId keep cursor held ≠ none := by
  induction keep generalizing cursor held with
  | zero => cases cursor <;> nofun
  | succ _ ih =>
    cases cursor with
    | none => nofun
    | some =>
      rw [newest]
      split
      next => rw [if_neg (by simp [some_])]; nofun
      next record _ =>
        split
        next => nofun
        next => exact ih (ExtTreeMap.isEmpty_eq_false_iff.mpr ExtTreeMap.insert_ne_empty)

/-- The walk gives up only at a head that is gone. -/
theorem Store.newest_none {head : Text} (result : store.newest trackId keep (some head) ∅ = none) :
    store.loadCommitRecordForTrack trackId head = none := by
  cases keep with
  | zero => cases result
  | succ =>
    cases loaded : store.loadCommitRecordForTrack trackId head with
    | none => rfl
    | some =>
      rw [newest, loaded] at result
      dsimp only at result
      split at result
      next => cases result
      next => exact absurd result (newest_ne_none
        (ExtTreeMap.isEmpty_eq_false_iff.mpr ExtTreeMap.insert_ne_empty))

/-! ## What the prune does -/

/-- Times of commits put into a map of times. -/
theorem foldl_insert_times {time : Text → Option Int} {rows : List (Text × CommitRecord)}
    (agree : ∀ row ∈ rows, time row.1 = some row.2.createdAt)
    (times : ∀ hash at_, held[hash]? = some at_ → time hash = some at_) :
    (∀ hash at_, (rows.foldl (fun held row => held.insert row.1 row.2.createdAt) held)[hash]? =
      some at_ → time hash = some at_) ∧
    ∀ hash, hash ∈ rows.foldl (fun held row => held.insert row.1 row.2.createdAt) held ↔
      hash ∈ held ∨ ∃ record, (hash, record) ∈ rows := by
  induction rows generalizing held with
  | nil => exact ⟨times, fun hash => by simp⟩
  | cons first _ ih =>
    have times' : ∀ hash at_, (held.insert first.1 first.2.createdAt)[hash]? = some at_ →
        time hash = some at_ := by
      intro hash at_ isHeld
      rw [get_insert] at isHeld
      split at isHeld
      next same => rw [same, agree first mem_cons_self, isHeld]
      next => exact times hash at_ isHeld
    obtain ⟨all, members⟩ := ih (fun row among => agree row (mem_cons_of_mem _ among)) times'
    refine ⟨all, fun hash => (members hash).trans ?_⟩
    rw [mem_insert]
    constructor
    · rintro ((same | before) | ⟨record, among⟩)
      · exact .inr ⟨first.2, mem_cons.mpr (.inl (by rw [same]))⟩
      · exact .inl before
      · exact .inr ⟨record, mem_cons_of_mem _ among⟩
    · rintro (before | ⟨record, among⟩)
      · exact .inl (.inr before)
      · rcases mem_cons.mp among with same | later
        · exact .inl (.inl (congrArg Prod.fst same))
        · exact .inr ⟨record, later⟩

theorem Store.mem_doomed (loaded : store.loadCommitRecordForTrack trackId hash = some record) :
    hash ∈ store.doomed trackId floor held ↔ record.createdAt < floor ∧ hash ∉ held := by
  obtain ⟨stored, isTrack⟩ := load_eq_some.mp loaded
  rw [doomed, mem_map]
  constructor
  · rintro ⟨_, among, rfl⟩
    obtain ⟨isRow, selected⟩ := mem_filter.mp among
    have isFound := ExtTreeMap.mem_toList_iff_getElem?_eq_some.mp isRow
    cases stored.symm.trans isFound
    simpa [isTrack, ← ExtTreeMap.contains_iff_mem] using selected
  · rintro ⟨older, free⟩
    refine ⟨(hash, record), mem_filter.mpr
      ⟨ExtTreeMap.mem_toList_iff_getElem?_eq_some.mpr stored, ?_⟩, rfl⟩
    have missing : held.contains hash = false :=
      Bool.eq_false_iff.mpr fun known => free (ExtTreeMap.contains_iff_mem.mp known)
    simp [isTrack, older, missing]

/-- What a prune does to the store. -/
inductive Database.Pruned (db : Database) (codec : Codec) (trackId : Text) (keep : Nat) :
    Store → Prop
  | headless : (∀ depth hash, ¬ db.store.AtDepth trackId depth hash) →
      Pruned db codec trackId keep db.store
  | unresolved : ¬ db.Resolvable codec trackId → Pruned db codec trackId keep db.store
  | cut {after : Store} : db.Resolvable codec trackId → after.refs = db.store.refs →
      (∀ hash record, db.store.loadCommitRecordForTrack trackId hash = some record →
        (db.store.Keeps after hash ↔ db.Guarded codec trackId keep record)) →
      Pruned db codec trackId keep after

/-- A commit survives the delete exactly when a protected commit is no newer. -/
theorem Database.keeps_deleteCommits_iff {db : Database}
    (times : ∀ hash at_, held[hash]? = some at_ → db.store.timeOf trackId hash = some at_)
    (members : ∀ hash, hash ∈ held ↔ db.Protected codec trackId keep hash)
    (least : (held.toList.map Prod.snd).min? = some floor)
    (loaded : db.store.loadCommitRecordForTrack trackId hash = some record) :
    db.store.Keeps (db.store.deleteCommits (db.store.doomed trackId floor held)) hash ↔
      db.Guarded codec trackId keep record := by
  obtain ⟨reached, lower⟩ := min?_eq_some_iff.mp least
  have stored := (load_eq_some.mp loaded).1
  rw [Store.Keeps, deleteCommits_get, stored]
  constructor
  · intro kept
    split at kept
    next => cases kept
    next spared =>
      rw [mem_doomed loaded] at spared
      by_cases isHeld : hash ∈ held
      · exact ⟨hash, record, (members hash).mp isHeld, loaded, Int.le_refl _⟩
      · obtain ⟨⟨guard, at_⟩, among, rfl⟩ := mem_map.mp reached
        have isAt := ExtTreeMap.mem_toList_iff_getElem?_eq_some.mp among
        obtain ⟨older, isOlder, rfl⟩ := map_eq_some_iff.mp (times guard at_ isAt)
        have within : guard ∈ held :=
          ExtTreeMap.mem_iff_isSome_getElem?.mpr (isSome_iff_exists.mpr ⟨_, isAt⟩)
        refine ⟨guard, older, (members guard).mp within, isOlder, ?_⟩
        exact Int.not_lt.mp fun newer => spared ⟨newer, isHeld⟩
  · rintro ⟨guard, older, isProtected, isOlder, notNewer⟩
    obtain ⟨at_, isAt⟩ := isSome_iff_exists.mp
      (ExtTreeMap.mem_iff_isSome_getElem?.mp ((members guard).mpr isProtected))
    have same := times guard at_ isAt
    rw [timeOf, isOlder] at same
    cases same
    have bound : floor ≤ older.createdAt := lower _ (mem_map.mpr
      ⟨(guard, older.createdAt), ExtTreeMap.mem_toList_iff_getElem?_eq_some.mpr isAt, rfl⟩)
    rw [if_neg fun doomed =>
      absurd ((mem_doomed loaded).mp doomed).1 (Int.not_lt.mpr (Int.le_trans bound notNewer))]

theorem Database.pruneTrackHistory_pruned (db : Database) (codec : Codec) (trackId : Text)
    (keep : Nat) : db.Pruned codec trackId keep (db.pruneTrackHistory codec trackId keep).1 := by
  have one : 0 < max keep 1 := by omega
  rw [pruneTrackHistory]
  split
  next missing =>
    refine .headless ?_
    rintro depth hash ⟨head, isHead, _⟩
    cases missing.symm.trans isHead
  next head isHead =>
    have atDepth : ∀ depth hash, db.store.AtDepth trackId depth hash ↔
        db.store.Under trackId (some head) depth hash := by
      intro depth hash
      rw [Store.AtDepth, isHead, Store.Under]
    split
    next nothing =>
      refine .headless fun depth hash there => ?_
      exact not_under (newest_none nothing) ((atDepth depth hash).mp there)
    next newest isNewest =>
      obtain ⟨times, members⟩ := newest_spec
        ⟨fun hash at_ impossible => by simp at impossible, fun hash impossible => by
          simp at impossible⟩ isNewest
      split
      next none_ =>
        apply Pruned.unresolved
        rw [← isSome_activeDiffEndpointCommits, none_]
        nofun
      next records isRecords =>
        have resolvable : db.Resolvable codec trackId :=
          isSome_activeDiffEndpointCommits.mp (isSome_iff_exists.mpr ⟨records, isRecords⟩)
        have agree : ∀ row ∈ records, db.store.timeOf trackId row.1 = some row.2.createdAt := by
          intro row among
          obtain ⟨_, loaded⟩ := (mem_activeDiffEndpointCommits isRecords).mp among
          rw [timeOf, loaded, map_some]
        obtain ⟨times, members'⟩ := foldl_insert_times agree times
        have isProtected : ∀ hash, hash ∈ records.foldl
            (fun held row => held.insert row.1 row.2.createdAt) newest ↔
              db.Protected codec trackId keep hash := by
          intro hash
          have isEndpoint : (∃ record, (hash, record) ∈ records) ↔
              db.Endpoint codec trackId hash := by
            constructor
            · rintro ⟨record, among⟩
              exact ((mem_activeDiffEndpointCommits isRecords).mp among).1
            · intro endpoint
              obtain ⟨record, loaded⟩ :=
                isSome_iff_exists.mp (resolvable.stored hash endpoint)
              exact ⟨record, (mem_activeDiffEndpointCommits isRecords).mpr ⟨endpoint, loaded⟩⟩
          rw [members', members, isEndpoint, Protected]
          simp only [atDepth, ExtTreeMap.not_mem_empty, false_or]
        dsimp only
        split
        next empty =>
          -- The head is among the newest commits.
          cases loaded : db.store.loadCommitRecordForTrack trackId head with
          | none =>
            exact .headless fun depth hash there =>
              not_under loaded ((atDepth depth hash).mp there)
          | some =>
            have held := (isProtected head).mpr
              (.inl ⟨0, one, (atDepth 0 head).mpr ((under_zero loaded).mpr rfl)⟩)
            rw [min?_eq_none_iff, map_eq_nil_iff, ExtTreeMap.toList_eq_nil_iff] at empty
            rw [empty] at held
            exact absurd held ExtTreeMap.not_mem_empty
        next least =>
          refine .cut resolvable (deleteCommits_refs _ _) fun hash record loaded => ?_
          exact keeps_deleteCommits_iff times isProtected least loaded

/-! ## The chain -/

theorem Store.AtDepth.reachable (there : store.AtDepth trackId depth hash) :
    store.Reachable hash := by
  obtain ⟨head, isHead, up⟩ := there
  have more : ∀ {hash parent}, store.trackParent trackId hash = some parent →
      store.parentOf hash = some parent := by
    intro hash parent isParent
    obtain ⟨record, loaded, same⟩ := trackParent_eq_some.mp isParent
    exact parentOf_eq_some.mpr ⟨record, (load_eq_some.mp loaded).1, same⟩
  have chain : Reach (store.trackParent trackId) (· = head) hash := by
    have start : Reach (store.trackParent trackId) (· = head) head :=
      .root rfl (nth_start up)
    exact start.nth up
  refine chain.mono more ?_
  rintro _ rfl stored
  obtain ⟨parent, isParent⟩ := isSome_iff_exists.mp stored
  exact .root ⟨trackId, isHead⟩ (isSome_iff_exists.mpr ⟨parent, more isParent⟩)

theorem Store.AtDepth.loaded (there : store.AtDepth trackId depth hash) :
    ∃ record, store.loadCommitRecordForTrack trackId hash = some record := by
  obtain ⟨head, _, up⟩ := there
  exact Store.Under.loaded ⟨head, rfl, up⟩

/-- A chain whose commits are kept leads to the same commit. -/
theorem Store.AtDepth.of_keeps {before after : Store} (there : before.AtDepth trackId depth hash)
    (refs : after.refs = before.refs)
    (kept : ∀ near ≤ depth, ∀ between, before.AtDepth trackId near between →
      before.Keeps after between) : after.AtDepth trackId depth hash := by
  obtain ⟨head, isHead, up⟩ := there
  refine ⟨head, refs ▸ isHead, nth_of_kept up fun near within between there => ?_⟩
  rw [trackParent, trackParent, loadCommitRecordForTrack, loadCommitRecordForTrack,
    kept near within between ⟨head, isHead, there⟩]

/-- **Pruning keeps what is referred to, as far as time follows the chain.**  The newest commits,
the commits between the head and every endpoint, and the way to the endpoints are kept exactly
when no commit of these spans is older than every protected commit. -/
theorem history_kept_iff (db : Database) (codec : Codec) (trackId : Text) (keep : Nat) :
    db.HistoryKept codec trackId keep (db.pruneTrackHistory codec trackId keep).1 ↔
      db.SpansCovered codec trackId keep := by
  have pruned := db.pruneTrackHistory_pruned codec trackId keep
  revert pruned
  generalize (db.pruneTrackHistory codec trackId keep).1 = after
  intro pruned
  constructor
  · intro kept resolvable depth endpoint isEndpoint there near within hash record between loaded
    cases pruned with
    | headless none_ => exact absurd there (none_ depth endpoint)
    | unresolved not_ => exact absurd resolvable not_
    | cut _ _ iff =>
      exact (iff hash record loaded).mp (kept.spans depth endpoint isEndpoint there near within
        hash between)
  · intro covered
    have spans : ∀ depth endpoint, db.Endpoint codec trackId endpoint →
        db.store.AtDepth trackId depth endpoint → ∀ near ≤ depth, ∀ hash,
          db.store.AtDepth trackId near hash → db.store.Keeps after hash := by
      intro depth endpoint isEndpoint there near within hash between
      cases pruned with
      | headless | unresolved => rfl
      | cut resolvable _ iff =>
        obtain ⟨record, loaded⟩ := between.loaded
        exact (iff hash record loaded).mpr (covered resolvable depth endpoint isEndpoint there near
          within hash record between loaded)
    have refs : after.refs = db.store.refs := by
      cases pruned with
      | headless | unresolved => rfl
      | cut _ refs => exact refs
    refine ⟨fun depth bound hash there => ?_, spans, fun depth endpoint isEndpoint there => ?_,
      fun not_ => ?_⟩
    · cases pruned with
      | headless | unresolved => rfl
      | cut _ _ iff =>
        obtain ⟨record, loaded⟩ := there.loaded
        exact (iff hash record loaded).mpr
          ⟨hash, record, .inl ⟨depth, bound, there⟩, loaded, Int.le_refl _⟩
    · have still := there.of_keeps refs (spans depth endpoint isEndpoint there)
      refine ⟨still, fun record stored => ?_⟩
      have isKept := spans depth endpoint isEndpoint there depth (Nat.le_refl depth) endpoint there
      exact Store.ReachableTree.mem_hashes
        ⟨endpoint, record, still.reachable, isKept.trans stored, rfl⟩
    · cases pruned with
      | headless | unresolved => rfl
      | cut resolvable => exact absurd resolvable not_

/-- Three commits of one track; the clock went back before the second. -/
def clockBack : Store :=
  { commits := ExtTreeMap.ofList
      ([(['a'], ⟨['t'], none, ['x'], 10⟩), (['b'], ⟨['t'], some ['a'], ['y'], 5⟩),
        (['c'], ⟨['t'], some ['b'], ['z'], 20⟩)] : List (Text × CommitRecord))
    refs := ExtTreeMap.ofList [(['t'], ['c'])]
    objects := ∅
    legacy := 0
    unknown := 0
    pending := none }

/-- A live session last saw the first commit. -/
def clockBackDb : Database :=
  { store := clockBack
    sessions := [⟨['t'], .idle, .codex, .planner, some ['a']⟩]
    knowledge := [] }

/-- Documents that are the hash of the last commit seen. -/
def plainCodec : Codec :=
  { fromCheckpoint := fun json => some ⟨some json, none⟩
    historyRef := fun json => some (.commit json) }

/-- The commit between the head and the endpoint is deleted. -/
theorem clockBack_cut : ¬ clockBackDb.HistoryKept plainCodec ['t'] 1
    (clockBackDb.pruneTrackHistory plainCodec ['t'] 1).1 := by
  intro kept
  have endpoint : clockBackDb.Endpoint plainCodec ['t'] ['a'] :=
    ⟨[['a']], by decide +kernel, mem_singleton.mpr rfl⟩
  have there : clockBackDb.store.AtDepth ['t'] 2 ['a'] :=
    ⟨['c'], by decide +kernel, by decide +kernel⟩
  have between : clockBackDb.store.AtDepth ['t'] 1 ['b'] :=
    ⟨['c'], by decide +kernel, by decide +kernel⟩
  have same := kept.spans 2 ['a'] endpoint there 1 (by decide) ['b'] between
  have gone : (clockBackDb.pruneTrackHistory plainCodec ['t'] 1).1.commits[['b']]? ≠
      clockBackDb.store.commits[['b']]? := by
    decide +kernel
  exact gone same

end NeigeCalm.Vcs
