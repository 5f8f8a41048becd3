import NeigeCalm.Authority.Gate

/-!
# The gate inside a write transaction

A session-keyed actor is resolved to the card that its session works for, and the caches of the
gate are filled from the transaction: only with the rows that the gate can look up.  The verdict is
the one that full caches would give, and a worker that is allowed to write stays in the scope of
its card.
-/

namespace NeigeCalm.Authority

open Library List Option

variable {N : Type}

/-! ## Reads of a transaction -/

/-- A read that failed, or a stored value that does not decode. -/
inductive ReadError where
  | failed
deriving DecidableEq

/-- A row of `worker_sessions`. -/
structure WorkerSession where
  trackId : TrackId
  provider : WorkerProviderKind
  mode : SessionMode
  contract : WorkerContract
  state : WorkerSessionState
  cardId : Option CardId
deriving DecidableEq

/-- What the gate may read of the caller's transaction. -/
structure WriteTx where
  readWorkerSession : WorkerSessionId → Except ReadError (Option WorkerSession)
  readCardRole : CardId → Except ReadError (Option CardRole)
  readCardTrack : CardId → Except ReadError (Option TrackId)
  readTrackArea : TrackId → Except ReadError (Option AreaId)

def readOr {α : Type} (violation : RoleViolation) : Except ReadError α → Except RoleViolation α
  | .ok value => .ok value
  | .error _ => .error violation

/-! ## Resolving a session -/

/-- The card-keyed actor that a session-keyed one acts as. -/
def syntheticActor (actor : ActorId) (sessionId : WorkerSessionId) (session : WorkerSession)
    (card : CardId) (cache : CardRoleCache) : Except RoleViolation ActorId :=
  match actor with
  | .aiPlannerSession _ =>
    -- the gate itself does not check the role of a planner again
    if cache.get card ≠ some .planner then .error (.sessionPlannerRoleMismatch sessionId card)
    else .ok (.aiPlanner card)
  | .aiCodexSession _ => .ok (.aiCodex card)
  | .aiClaudeSession _ => .ok (.aiClaude card)
  | .aiManagedSession _ =>
    if session.contract ≠ .assistant then .error (.sessionActorUnresolved sessionId)
    else .ok (.aiManagedCard card)
  | other => .ok other

def ActorId.isManagedSession : ActorId → Bool
  | .aiManagedSession _ => true
  | _ => false

/-- The session and the card with which a session-keyed actor acts. -/
def resolveSession (tx : WriteTx) (actor : ActorId) (sessionId : WorkerSessionId) :
    Except RoleViolation (WorkerSession × CardId) :=
  if sessionId = [] then .error (.sessionRowMissing sessionId)
  else match tx.readWorkerSession sessionId with
    | .error _ => .error (.sessionResolutionError sessionId)
    | .ok none => .error (.sessionRowMissing sessionId)
    | .ok (some session) =>
      if ¬session.state.isActiveAuthority then .error (.sessionNotActive sessionId)
      else if session.contract = .assistant ∧ ¬actor.isManagedSession then
        .error (.sessionActorUnresolved sessionId)
      else match session.cardId with
        | none => .error (.cardlessSessionDenied sessionId)
        | some card => .ok (session, card)

def enforceRoleResolvingSession (quote : Text → Text) (tx : WriteTx) (actor : ActorId)
    (event : Event) (scope : EventScope) (cache : CardRoleCache) (areas : TrackAreaCache) :
    Verdict :=
  match actor.sessionId with
  | none => enforceRole quote actor event scope cache areas
  | some sessionId => do
    let (session, card) ← resolveSession tx actor sessionId
    let synthetic ← syntheticActor actor sessionId session card cache
    enforceRole quote synthetic event scope cache areas

/-! ## Filling the caches -/

/-- The cards to look up, without empty identifiers and each once. -/
def wantedCards (actor : ActorId) (scope : EventScope) (extra : Option CardId) : List CardId :=
  (actor.cardId.toList ++ scope.cardId.toList ++ extra.toList).foldl
    (fun cards card => if card = [] ∨ card ∈ cards then cards else cards ++ [card]) []

/-- The loop over the cards, with the tracks and the entries collected so far. -/
def hydrateCards (tx : WriteTx) : List CardId → List TrackId → CardRoleCache →
    Except RoleViolation (List TrackId × CardRoleCache)
  | [], tracks, cache => .ok (tracks, cache)
  | card :: rest, tracks, cache => do
    let role ← readOr (.roleLookupFailed (labelled "cards.role" card)) (tx.readCardRole card)
    let home ← readOr (.roleLookupFailed (labelled "cards.track_id" card)) (tx.readCardTrack card)
    match role, home with
    | some role, some home =>
      hydrateCards tx rest (if home ∈ tracks then tracks else tracks ++ [home])
        (cache.insert card role home)
    -- both halves or neither
    | _, _ => hydrateCards tx rest tracks cache

def hydrateTracks (tx : WriteTx) : List TrackId → TrackAreaCache →
    Except RoleViolation TrackAreaCache
  | [], areas => .ok areas
  | track :: rest, areas => do
    let area ← readOr (.roleLookupFailed (labelled "tracks.area_id" track)) (tx.readTrackArea track)
    match area with
    | some area => hydrateTracks tx rest (areas.insert track area)
    | none => hydrateTracks tx rest areas

def hydrateRoleCachesFromTx (tx : WriteTx) (actor : ActorId) (scope : EventScope)
    (extra : Option CardId) : Except RoleViolation (CardRoleCache × TrackAreaCache) := do
  let (tracks, cache) ←
    hydrateCards tx (wantedCards actor scope extra) scope.trackId.toList .new
  let areas ← hydrateTracks tx tracks .new
  return (cache, areas)

/-- The card of a session-keyed actor, looked up only as a key; a failure is not interpreted. -/
def sessionCard (tx : WriteTx) (actor : ActorId) : Option CardId :=
  match actor.sessionId with
  | none => none
  | some sessionId =>
    if sessionId = [] then none
    else match tx.readWorkerSession sessionId with
      | .ok (some session) => session.cardId
      | _ => none

def enforceRoleResolvingSessionFromTx (quote : Text → Text) (tx : WriteTx) (actor : ActorId)
    (event : Event) (scope : EventScope) : Verdict := do
  let (cache, areas) ← hydrateRoleCachesFromTx tx actor scope (sessionCard tx actor)
  enforceRoleResolvingSession quote tx actor event scope cache areas

/-! ## The database -/

/-- A row of `cards`; the payload is what its text decodes to. -/
structure CardRow (N : Type) where
  role : CardRole
  trackId : TrackId
  kind : Text
  payload : Except ReadError (Json N)
  sessionId : Option WorkerSessionId

structure Database (N : Type) where
  cards : CardId → Option (CardRow N)
  /-- The area of each track. -/
  tracks : TrackId → Option AreaId
  /-- What each stored row decodes to. -/
  sessions : WorkerSessionId → Option (Except ReadError WorkerSession)

/-- The key of the provider in the payload of a card whose role fits the contract. -/
def providerKey (payload : Json N) : CardRole → WorkerContract → Option (Option Text)
  | .planner, .planner => some (some "planner_provider".toList)
  | .assistant, .assistant =>
    if (payload.get "harness_profile".toList).bind Json.asStr = some "assistant".toList then
      some (some "assistant_provider".toList)
    else none
  | .worker, .executor | .worker, .validator => some none
  | _, _ => none

/-- The session is the one that the card's stored binding declares. -/
def bound (row : CardRow N) (payload : Json N) (session : WorkerSession) : Bool :=
  match providerKey payload row.role session.contract with
  | none => false
  | some none => true
  | some (some key) =>
    row.kind = "codex".toList ∧ session.mode = .resumable ∧ session.provider ≠ .terminal ∧
      ((payload.get key).bind AgentProvider.ofJson).map WorkerProviderKind.ofProvider =
        some session.provider

namespace Database

/-- A session for authority: an active one must still belong to its card and contract. -/
def readWorkerSession (db : Database N) (id : WorkerSessionId) :
    Except ReadError (Option WorkerSession) :=
  match db.sessions id with
  | none => .ok none
  | some (.error e) => .error e
  | some (.ok session) =>
    if ¬session.state.isActiveAuthority then .ok (some session)
    else match session.cardId with
      | none => .ok none
      | some card => match db.cards card with
        | none => .ok none
        | some row => match row.payload with
          | .error e => .error e
          | .ok payload =>
            if row.sessionId ≠ some id ∨ row.trackId ≠ session.trackId then .ok none
            else if bound row payload session then .ok (some session)
            else .ok none

def writeTx (db : Database N) : WriteTx where
  readWorkerSession := db.readWorkerSession
  readCardRole card := .ok ((db.cards card).map (·.role))
  readCardTrack card := .ok ((db.cards card).map (·.trackId))
  readTrackArea track := .ok (db.tracks track)

/-- A cache that holds every card row. -/
def cardCache (db : Database N) : CardRoleCache :=
  fun card => (db.cards card).map fun row => { role := row.role, trackId := row.trackId }

/-- A cache that holds every track row. -/
def areaCache (db : Database N) : TrackAreaCache := db.tracks

/-- A cache that holds every card row with an identifier that is not empty. -/
def namedCardCache (db : Database N) : CardRoleCache :=
  fun card => if card = [] then none else db.cardCache card

end Database

/-! ## The filled caches hold what full caches hold -/

variable {actor : ActorId} {card : CardId} {db : Database N} {scope : EventScope}
    {session : WorkerSession} {sessionId : WorkerSessionId}

theorem mem_wanted {cards seen : List CardId} :
    card ∈ cards.foldl (fun cards card => if card = [] ∨ card ∈ cards then cards
      else cards ++ [card]) seen ↔ card ∈ seen ∨ card ≠ [] ∧ card ∈ cards := by
  induction cards generalizing seen with
  | nil => simp
  | cons _ _ ih =>
    rw [foldl_cons, ih]
    split
    · next skipped =>
      constructor
      · rintro (old | ⟨named, later⟩)
        · exact .inl old
        · exact .inr ⟨named, mem_cons_of_mem _ later⟩
      · rintro (old | ⟨named, member⟩)
        · exact .inl old
        · rcases mem_cons.mp member with rfl | later
          · exact .inl (skipped.resolve_left named)
          · exact .inr ⟨named, later⟩
    · next fresh =>
      rw [mem_append, mem_singleton, mem_cons]
      constructor
      · rintro ((old | rfl) | ⟨named, later⟩)
        · exact .inl old
        · exact .inr ⟨fun empty => fresh (.inl empty), .inl rfl⟩
        · exact .inr ⟨named, .inr later⟩
      · rintro (old | ⟨named, rfl | later⟩)
        · exact .inl (.inl old)
        · exact .inl (.inr rfl)
        · exact .inr ⟨named, later⟩

theorem mem_wantedCards {extra : Option CardId} :
    card ∈ wantedCards actor scope extra ↔ card ≠ [] ∧
      (actor.cardId = some card ∨ scope.cardId = some card ∨ extra = some card) := by
  rw [wantedCards, mem_wanted]
  simp

namespace Database

variable (db : Database N)

/-- The loop over the cards adds the row of each, and its home track. -/
theorem hydrateCards_ok (cards : List CardId) (tracks : List TrackId) (cache : CardRoleCache) :
    ∃ tracks' cache', hydrateCards db.writeTx cards tracks cache = .ok (tracks', cache') ∧
      (∀ track ∈ tracks, track ∈ tracks') ∧
      (∀ card ∈ cards, ∀ entry, db.cardCache card = some entry → entry.trackId ∈ tracks') ∧
      ∀ card, cache' card =
        if card ∈ cards then (db.cardCache card).or (cache card) else cache card := by
  induction cards generalizing tracks cache with
  | nil => exact ⟨tracks, cache, rfl, fun _ => id, nofun, fun _ => rfl⟩
  | cons first _ ih =>
    cases stored : db.cards first with
    | none =>
      obtain ⟨tracks', cache', done, kept, homes, entries⟩ := ih tracks cache
      have absent : db.cardCache first = none := by rw [cardCache, stored]; rfl
      refine ⟨tracks', cache', ?_, kept, ?_, fun card => ?_⟩
      · simpa [hydrateCards, writeTx, readOr, stored, bind, Except.bind] using done
      · intro card member entry isEntry
        rcases mem_cons.mp member with rfl | later
        · cases absent.symm.trans isEntry
        · exact homes card later entry isEntry
      · rw [entries card]
        by_cases same : card = first
        · subst same
          simp [absent]
        · simp [same]
    | some row =>
      obtain ⟨tracks', cache', done, kept, homes, entries⟩ :=
        ih (if row.trackId ∈ tracks then tracks else tracks ++ [row.trackId])
          (cache.insert first row.role row.trackId)
      have present : db.cardCache first = some ⟨row.role, row.trackId⟩ := by
        rw [cardCache, stored]
        rfl
      have added : ∀ track, track ∈ tracks ∨ track = row.trackId → track ∈ tracks' := by
        intro track either
        apply kept
        split
        · next already => exact either.elim id fun same => same ▸ already
        · exact mem_append.mpr (either.imp_right mem_singleton.mpr)
      refine ⟨tracks', cache', ?_, fun track old => added track (.inl old), ?_, fun card => ?_⟩
      · simpa [hydrateCards, writeTx, readOr, stored, bind, Except.bind] using done
      · intro card member entry isEntry
        rcases mem_cons.mp member with rfl | later
        · cases present.symm.trans isEntry
          exact added _ (.inr rfl)
        · exact homes card later entry isEntry
      · rw [entries card]
        by_cases same : card = first
        · subst same
          simp [present]
        · simp [same]

theorem hydrateTracks_ok (tracks : List TrackId) (areas : TrackAreaCache) :
    ∃ areas', hydrateTracks db.writeTx tracks areas = .ok areas' ∧
      ∀ track, areas' track =
        if track ∈ tracks then (db.tracks track).or (areas track) else areas track := by
  induction tracks generalizing areas with
  | nil => exact ⟨areas, rfl, fun _ => rfl⟩
  | cons first _ ih =>
    obtain ⟨areas', done, entries⟩ := ih ((db.tracks first).elim areas (areas.insert first))
    cases stored : db.tracks first with rw [stored] at done entries
    | none | some =>
      refine ⟨areas', ?_, fun track => ?_⟩
      · simpa [hydrateTracks, writeTx, readOr, stored, bind, Except.bind] using done
      · rw [entries track]
        by_cases same : track = first
        · subst same
          simp [stored]
        · simp [same]

/-- Filling the caches succeeds; on every card asked for they hold what full caches hold. -/
theorem hydrate_ok (actor : ActorId) (scope : EventScope) (extra : Option CardId) :
    ∃ cache areas, hydrateRoleCachesFromTx db.writeTx actor scope extra = .ok (cache, areas) ∧
      ∀ card, actor.cardId = some card ∨ scope.cardId = some card ∨ extra = some card →
        cache card = db.namedCardCache card ∧
        ∀ entry, cache card = some entry →
          areas entry.trackId = db.areaCache entry.trackId := by
  obtain ⟨tracks, cache, cardsDone, -, homes, entries⟩ :=
    db.hydrateCards_ok (wantedCards actor scope extra) scope.trackId.toList .new
  obtain ⟨areas, tracksDone, found⟩ := db.hydrateTracks_ok tracks .new
  refine ⟨cache, areas, by simp [hydrateRoleCachesFromTx, cardsDone, tracksDone, bind,
    Except.bind, pure, Except.pure], fun card asked => ?_⟩
  by_cases empty : card = []
  · have unknown : cache card = none := by
      rw [entries card, if_neg fun member => (mem_wantedCards.mp member).1 empty]
      rfl
    rw [namedCardCache, if_pos empty, unknown]
    exact ⟨rfl, nofun⟩
  · have member := mem_wantedCards.mpr ⟨empty, asked⟩
    have known : cache card = db.cardCache card := by
      rw [entries card, if_pos member]
      exact or_none
    rw [namedCardCache, if_neg empty]
    refine ⟨known, fun entry isEntry => ?_⟩
    have home := homes card member entry (known.symm.trans isEntry)
    rw [found entry.trackId, if_pos home]
    exact or_none

end Database

/-! ## The same verdict -/

/-- The kinds of agents that are confined to a card. -/
inductive Agent where
  | codex
  | claude
  | managed
deriving DecidableEq

/-- The agent behind an actor, given by card or by session. -/
def ActorId.agent : ActorId → Option Agent
  | .aiCodex _ | .aiCodexSession _ => some .codex
  | .aiClaude _ | .aiClaudeSession _ => some .claude
  | .aiManagedCard _ | .aiManagedSession _ => some .managed
  | _ => none

theorem resolveSession_ok (resolved : resolveSession tx actor sessionId = .ok (session, card)) :
    sessionId ≠ [] ∧ tx.readWorkerSession sessionId = .ok (some session) ∧
      session.state.isActiveAuthority = true ∧ session.cardId = some card := by
  unfold resolveSession at resolved
  split at resolved
  · cases resolved
  next named =>
  split at resolved
  · cases resolved
  · cases resolved
  next read =>
  split at resolved
  · cases resolved
  next active =>
  split at resolved
  · cases resolved
  split at resolved
  · cases resolved
  next hasCard =>
  cases resolved
  exact ⟨named, read, not_not.mp active, hasCard⟩

theorem syntheticActor_ok (isSession : actor.sessionId = some sessionId)
    (resolved : syntheticActor actor sessionId session card cache = .ok synthetic) :
    synthetic.cardId = some card ∧ synthetic.agent = actor.agent := by
  cases actor with
  | aiPlannerSession | aiManagedSession =>
    simp only [syntheticActor] at resolved
    split at resolved
    · cases resolved
    · cases resolved
      exact ⟨rfl, rfl⟩
  | aiCodexSession _ | aiClaudeSession _ =>
    cases resolved
    exact ⟨rfl, rfl⟩
  | _ => cases isSession

theorem syntheticActor_congr (known : cache card = cache' card) :
    syntheticActor actor sessionId session card cache =
      syntheticActor actor sessionId session card cache' := by
  cases actor with
  | aiPlannerSession =>
    have same : cache.get card = cache'.get card := congrArg (Option.map _) known
    rw [syntheticActor, syntheticActor, same]
  | _ => rfl

theorem verdict_eq (quote : Text → Text) (db : Database N) (actor : ActorId) (event : Event)
    (scope : EventScope) :
    enforceRoleResolvingSessionFromTx quote db.writeTx actor event scope =
      enforceRoleResolvingSession quote db.writeTx actor event scope db.namedCardCache
        db.areaCache := by
  obtain ⟨cache, areas, hydrated, agrees⟩ :=
    db.hydrate_ok actor scope (sessionCard db.writeTx actor)
  have fromTx : enforceRoleResolvingSessionFromTx quote db.writeTx actor event scope =
      enforceRoleResolvingSession quote db.writeTx actor event scope cache areas := by
    rw [enforceRoleResolvingSessionFromTx, hydrated]
    rfl
  rw [fromTx, enforceRoleResolvingSession, enforceRoleResolvingSession]
  split
  · refine Agree.enforceRole ⟨fun card acting => (agrees card (.inl acting)).1,
      fun card target => (agrees card (.inr (.inl target))).1,
      fun card entry acting => (agrees card (.inl acting)).2 entry⟩
  next sessionId isSession =>
  cases resolved : resolveSession db.writeTx actor sessionId with
  | error => rfl
  | ok pair =>
    obtain ⟨session, card⟩ := pair
    obtain ⟨named, read, -, hasCard⟩ := resolveSession_ok resolved
    have extra : sessionCard db.writeTx actor = some card := by
      simp only [sessionCard, isSession, if_neg named, read, hasCard]
    have known := agrees card (.inr (.inr extra))
    change (syntheticActor actor sessionId session card cache >>= _) =
      (syntheticActor actor sessionId session card db.namedCardCache >>= _)
    rw [syntheticActor_congr known.1]
    cases acts : syntheticActor actor sessionId session card db.namedCardCache with
    | error => rfl
    | ok =>
      have own := (syntheticActor_ok isSession acts).1
      refine Agree.enforceRole ⟨fun other acting => ?_,
        fun other target => (agrees other (.inr (.inl target))).1, fun other entry acting => ?_⟩
      · cases own.symm.trans acting
        exact known.1
      · cases own.symm.trans acting
        exact known.2 entry

/-! ## Workers stay in the scope of their card -/

/-- The hook events of an agent's own process. -/
def Agent.hook : Agent → Option Event
  | .codex => some .codexHook
  | .claude => some .claudeHook
  | .managed => none

/-- The contracts that a session of a card may have. -/
def CardRole.admits : CardRole → WorkerContract → Bool
  | .planner, .planner | .assistant, .assistant | .worker, .executor | .worker, .validator => true
  | _, _ => false

/-- The session that acts for a card is active, is its current one and fits it. -/
structure ActsFor (db : Database N) (sessionId : WorkerSessionId) (card : CardId)
    (row : CardRow N) (session : WorkerSession) : Prop where
  stored : db.sessions sessionId = some (.ok session)
  active : session.state.isActiveAuthority = true
  card : session.cardId = some card
  current : row.sessionId = some sessionId
  track : session.trackId = row.trackId
  contract : CardRole.admits row.role session.contract = true

/-- A write of an agent in the scope of a stored card. -/
structure OwnScope (db : Database N) (actor : ActorId) (agent : Agent) (event : Event)
    (scope : EventScope) (card : CardId) (row : CardRow N) : Prop where
  stored : db.cards card = some row
  scope : ∃ target area, db.tracks row.trackId = some area ∧ scope = .card target row.trackId area ∧
    (target = card ∨ row.role = .assistant ∧ ∃ report, db.cards target = some report ∧
      report.role = .reportCard ∧ report.trackId = row.trackId)
  planner : row.role = .planner → event = .harnessUserMessageEnqueued ∨ agent.hook = some event
  unreserved : event.reservedFor = none
  acts : actor.cardId = some card ∨ ∃ sessionId session, actor.sessionId = some sessionId ∧
    ActsFor db sessionId card row session

theorem providerKey_admits (fits : providerKey payload role contract = some key) :
    CardRole.admits role contract = true := by
  cases role <;> cases contract <;> first | rfl | cases fits

theorem bound_admits (isBound : bound row payload session = true) :
    CardRole.admits row.role session.contract = true := by
  unfold bound at isBound
  split at isBound
  · cases isBound
  · next fits => exact providerKey_admits fits
  · next fits => exact providerKey_admits fits

theorem actsFor_of_read (stored : db.cards card = some row)
    (read : db.readWorkerSession sessionId = .ok (some session))
    (active : session.state.isActiveAuthority = true) (hasCard : session.cardId = some card) :
    ActsFor db sessionId card row session := by
  unfold Database.readWorkerSession at read
  split at read
  · cases read
  · cases read
  next found isFound =>
  split at read
  · next inactive =>
    cases read
    exact absurd active inactive
  split at read
  · cases read
  next other isOther =>
  split at read
  · cases read
  next otherRow isRow =>
  split at read
  · cases read
  next payload isPayload =>
  split at read
  · cases read
  next current =>
  split at read
  · next isBound =>
    cases read
    cases hasCard.symm.trans isOther
    cases stored.symm.trans isRow
    obtain ⟨isCurrent, sameTrack⟩ := not_or.mp current
    exact ⟨isFound, active, hasCard, not_not.mp isCurrent, (not_not.mp sameTrack).symm,
      bound_admits isBound⟩
  · cases read

theorem cached_row (isEntry : db.namedCardCache card = some entry) :
    ∃ row, db.cards card = some row ∧ entry = ⟨row.role, row.trackId⟩ := by
  unfold Database.namedCardCache at isEntry
  split at isEntry
  · cases isEntry
  · obtain ⟨row, stored, same⟩ := map_eq_some_iff.mp isEntry
    exact ⟨row, stored, same.symm⟩

theorem lifecycle_event (isAgent : actor.agent = some agent)
    (observes : isOwnWorkerLifecycleEvent actor event = true) :
    event = .harnessUserMessageEnqueued ∨ agent.hook = some event := by
  unfold isOwnWorkerLifecycleEvent at observes
  split at observes <;> first | (cases isAgent; simp [Agent.hook]) | cases observes

/-- The rows behind what the gate allows. -/
theorem Confined.ownScope
    (confined : Confined db.namedCardCache db.areaCache synthetic event scope card)
    (isAgent : synthetic.agent = some agent)
    (acts : ∀ row, db.cards card = some row → actor.cardId = some card ∨ ∃ sessionId session,
      actor.sessionId = some sessionId ∧ ActsFor db sessionId card row session) :
    ∃ row, OwnScope db actor agent event scope card row := by
  obtain ⟨_, area, target, isEntry, isArea, isScope, reaches, planner⟩ := confined.home
  obtain ⟨row, stored, rfl⟩ := cached_row isEntry
  refine ⟨row, stored, ⟨target, area, isArea, isScope, reaches.imp_right ?_⟩,
    fun isPlanner => lifecycle_event isAgent (planner isPlanner), confined.unreserved,
    acts row stored⟩
  rintro ⟨assistant, _, isReport, isRole, sameTrack⟩
  obtain ⟨reportRow, reportStored, rfl⟩ := cached_row isReport
  exact ⟨assistant, reportRow, reportStored, isRole, sameTrack⟩

theorem worker_of_agent (isAgent : actor.agent = some agent) (own : actor.cardId = some card) :
    ∃ label, actor.worker = some (card, label) := by
  cases actor <;> cases own <;> first | exact ⟨_, rfl⟩ | cases isAgent

theorem sessionId_or_cardId (isAgent : actor.agent = some agent)
    (noSession : actor.sessionId = none) : ∃ card, actor.cardId = some card := by
  cases actor <;> first | exact ⟨_, rfl⟩ | (cases noSession; done) | cases isAgent

theorem ownScope_of_allowed {quote : Text → Text} (isAgent : actor.agent = some agent)
    (allowed : enforceRoleResolvingSession quote db.writeTx actor event scope db.namedCardCache
      db.areaCache = .ok ()) : ∃ card row, OwnScope db actor agent event scope card row := by
  unfold enforceRoleResolvingSession at allowed
  split at allowed
  · next noSession =>
    obtain ⟨card, own⟩ := sessionId_or_cardId isAgent noSession
    obtain ⟨_, isWorker⟩ := worker_of_agent isAgent own
    exact ⟨card, (enforceRole_ok_worker isWorker allowed).ownScope isAgent fun _ _ => .inl own⟩
  · next sessionId isSession =>
    obtain ⟨⟨session, card⟩, resolved, allowed⟩ := Fallible.bind_eq_ok.mp allowed
    obtain ⟨_, acts, allowed⟩ := Fallible.bind_eq_ok.mp allowed
    obtain ⟨-, read, active, hasCard⟩ := resolveSession_ok resolved
    obtain ⟨own, sameAgent⟩ := syntheticActor_ok isSession acts
    obtain ⟨_, isWorker⟩ := worker_of_agent (sameAgent.trans isAgent) own
    refine ⟨card, (enforceRole_ok_worker isWorker allowed).ownScope (sameAgent.trans isAgent) ?_⟩
    intro row stored
    exact .inr ⟨sessionId, session, isSession, actsFor_of_read stored read active hasCard⟩

/-- **Agents are confined to their own card.**  A write that the transaction's gate allows to an
agent is in the scope of a stored card that the agent acts for, and of no reserved kind.  The
verdict is the one of caches that hold every track row and every card row with an identifier that
is not empty. -/
theorem agents_confined (quote : Text → Text) (db : Database N) (actor : ActorId) (event : Event)
    (scope : EventScope) :
    (enforceRoleResolvingSessionFromTx quote db.writeTx actor event scope = .ok () →
      ∀ agent, actor.agent = some agent →
        ∃ card row, OwnScope db actor agent event scope card row) ∧
    enforceRoleResolvingSessionFromTx quote db.writeTx actor event scope =
      enforceRoleResolvingSession quote db.writeTx actor event scope db.namedCardCache
        db.areaCache ∧
    (db.cards [] = none → db.namedCardCache = db.cardCache) := by
  refine ⟨fun allowed agent isAgent => ?_, verdict_eq quote db actor event scope, fun named => ?_⟩
  · rw [verdict_eq] at allowed
    exact ownScope_of_allowed isAgent allowed
  · funext card
    unfold Database.namedCardCache
    split
    · next empty => rw [empty, Database.cardCache, named, map_none]
    · rfl

/-- A report card whose row has the empty identifier. -/
def unnamedReport : Database Unit where
  cards card :=
    if card = ['a'] then some ⟨.assistant, ['t'], "codex".toList, .ok .null, none⟩
    else if card = [] then some ⟨.reportCard, ['t'], "report".toList, .ok .null, none⟩
    else none
  tracks track := if track = ['t'] then some ['r'] else none
  sessions _ := none

/-- The assistant may write on its own card. -/
theorem agents_confined_assistant :
    enforceRoleResolvingSessionFromTx id unnamedReport.writeTx (.aiCodex ['a']) .trackReportEdited
        (.card ['a'] ['t'] ['r']) = .ok () ∧
      ∃ card row, OwnScope unnamedReport (.aiCodex ['a']) .codex .trackReportEdited
        (.card ['a'] ['t'] ['r']) card row := by
  have allowed : enforceRoleResolvingSessionFromTx id unnamedReport.writeTx (.aiCodex ['a'])
      .trackReportEdited (.card ['a'] ['t'] ['r']) = .ok () := by decide +kernel
  exact ⟨allowed, (agents_confined id unnamedReport _ _ _).1 allowed .codex rfl⟩

/-- The row with the empty identifier is never looked up: full caches would allow what the
transaction's gate refuses. -/
theorem unnamedReport_verdicts_differ :
    ¬∀ (quote : Text → Text) (db : Database Unit) (actor : ActorId) (event : Event)
      (scope : EventScope),
      enforceRoleResolvingSessionFromTx quote db.writeTx actor event scope = .ok () ↔
        enforceRoleResolvingSession quote db.writeTx actor event scope db.cardCache
          db.areaCache = .ok () := by
  intro same
  have allowed : enforceRoleResolvingSession id unnamedReport.writeTx (.aiCodex ['a'])
      .trackReportEdited (.card [] ['t'] ['r']) unnamedReport.cardCache unnamedReport.areaCache =
        .ok () := by decide +kernel
  have refused : enforceRoleResolvingSessionFromTx id unnamedReport.writeTx (.aiCodex ['a'])
      .trackReportEdited (.card [] ['t'] ['r']) ≠ .ok () := by decide +kernel
  exact refused ((same _ _ _ _ _).mpr allowed)

end NeigeCalm.Authority
