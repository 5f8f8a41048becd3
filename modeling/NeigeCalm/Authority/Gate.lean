import NeigeCalm.Library.Fallible
import NeigeCalm.Worker

/-!
# The role gate

Every event is written on behalf of an actor and into a scope.  The gate decides from the actor,
the event, the scope and two caches (card to role and home track, track to area) whether the write
is allowed.  Anything it cannot prove is refused.
-/

namespace NeigeCalm.Authority

open Library Option

abbrev CardId := Text
abbrev TrackId := Text
abbrev AreaId := Text
abbrev WorkerSessionId := Text

/-! ## Actors, scopes and events -/

inductive ActorId where
  | user
  | kernel
  | kernelDispatcher
  | plugin (name : Text)
  | aiPlanner (card : CardId)
  | aiCodex (card : CardId)
  | aiClaude (card : CardId)
  /-- Internal surrogate of a managed session; never read from the wire. -/
  | aiManagedCard (card : CardId)
  | aiPlannerSession (session : WorkerSessionId)
  | aiCodexSession (session : WorkerSessionId)
  | aiClaudeSession (session : WorkerSessionId)
  | aiManagedSession (session : WorkerSessionId)
deriving DecidableEq

/-- A name with the identifier after it, if there is one. -/
def suffixed (name : String) (id : Text) : Text :=
  if id = [] then name.toList else name.toList ++ ':' :: id

/-- A variant with its field in parentheses. -/
def labelled (name : String) (field : Text) : Text := name.toList ++ '(' :: field ++ [')']

def ActorId.display : ActorId → Text
  | .user => "user".toList
  | .kernel => "kernel".toList
  | .kernelDispatcher => "kernel-dispatcher".toList
  | .plugin name => "plugin:".toList ++ name
  | .aiPlanner card => suffixed "ai:planner" card
  | .aiCodex card => suffixed "ai:codex" card
  | .aiClaude card => suffixed "ai:claude" card
  | .aiManagedCard card => suffixed "ai:managed-card" card
  | .aiPlannerSession session => suffixed "ai:planner-session" session
  | .aiCodexSession session => suffixed "ai:codex-session" session
  | .aiClaudeSession session => suffixed "ai:claude-session" session
  | .aiManagedSession session => suffixed "ai:managed-session" session

/-- Where an event lives in the hierarchy of areas, tracks and cards. -/
inductive EventScope where
  | system
  | area (area : AreaId)
  | track (track : TrackId) (area : AreaId)
  | card (card : CardId) (track : TrackId) (area : AreaId)
deriving DecidableEq

namespace EventScope

def trackId : EventScope → Option TrackId
  | .system | .area _ => none
  | .track home _ => some home
  | .card _ home _ => some home

def cardId : EventScope → Option CardId
  | .card target _ _ => some target
  | _ => none

end EventScope

section Debug

-- Rust's debug form of a string
variable (quote : Text → Text)

def ActorId.debug : ActorId → Text
  | .user => "User".toList
  | .kernel => "Kernel".toList
  | .kernelDispatcher => "KernelDispatcher".toList
  | .plugin name => labelled "Plugin" (quote name)
  | .aiPlanner card => labelled "AiPlanner" (labelled "CardId" (quote card))
  | .aiCodex card => labelled "AiCodex" (labelled "CardId" (quote card))
  | .aiClaude card => labelled "AiClaude" (labelled "CardId" (quote card))
  | .aiManagedCard card => labelled "AiManagedCard" (labelled "CardId" (quote card))
  | .aiPlannerSession session =>
    labelled "AiPlannerSession" (labelled "WorkerSessionId" (quote session))
  | .aiCodexSession session =>
    labelled "AiCodexSession" (labelled "WorkerSessionId" (quote session))
  | .aiClaudeSession session =>
    labelled "AiClaudeSession" (labelled "WorkerSessionId" (quote session))
  | .aiManagedSession session =>
    labelled "AiManagedSession" (labelled "WorkerSessionId" (quote session))

def EventScope.debug : EventScope → Text
  | .system => "System".toList
  | .area inArea =>
    "Area \x7b area: ".toList ++ labelled "AreaId" (quote inArea) ++ " \x7d".toList
  | .track home inArea =>
    "Track \x7b track: ".toList ++ labelled "TrackId" (quote home) ++ ", area: ".toList ++
      labelled "AreaId" (quote inArea) ++ " \x7d".toList
  | .card target home inArea =>
    "Card \x7b card: ".toList ++ labelled "CardId" (quote target) ++ ", track: ".toList ++
      labelled "TrackId" (quote home) ++ ", area: ".toList ++ labelled "AreaId" (quote inArea) ++
      " \x7d".toList

end Debug

inductive ProposalDecision where
  | accepted
  | rejected
  | stale
  | withdrawn
deriving DecidableEq

def ProposalDecision.asStr : ProposalDecision → Text
  | .accepted => "accepted".toList
  | .rejected => "rejected".toList
  | .stale => "stale".toList
  | .withdrawn => "withdrawn".toList

/-- The events of the log, with the fields that the gate reads. -/
inductive Event where
  | areaUpdated | areaDeleted | trackUpdated | trackDeleted | cardAdded | cardUpdated | cardDeleted
  | workerSessionStarted | workerSessionStatusChanged | workerSessionSuperseded
  | harnessItemAdded | harnessPhaseChanged | harnessTranscriptCleared | harnessTranscriptRewound
  | harnessUserMessageEnqueued | harnessQueueChanged | harnessPresentationChanged
  | trackReportEdited | trackWakeRequested
  | assistantInputRequested (cardId : CardId) (trackId : TrackId)
  | overlaySet | overlayDeleted | terminalDeleted
  | pluginState | pluginDataChanged | pluginToolRegistered
  | codexHook | claudeHook | codexWorkerRequested | terminalWorkerRequested
  | taskCompleted | taskFailed | taskGitDeliverySettled | planUpdated | taskDispatched
  | taskContextFrozen | taskContextAdvanced | taskGateResult | taskRegateRequested
  | workspaceLeased | workspaceReleased | forgePrMerged
  | askRequested | askAnswered | askWithdrawn
  | proposalSubmitted (pluginId : Text)
  | proposalResolved (pluginId : Text) (decision : ProposalDecision)
  | forgeScanCompleted | forgePrOpened | forgePrPublished | forgePrDiffRead | forgePrChecks
  | forgeCiEvidenceRead | forgeIssueRead | forgeIssueCreated | forgeIssueSearched
  | forgeIssueClosed
  | worktreeProvisioned | worktreeCommitted | worktreeRemoved
deriving DecidableEq

/-! ## The caches -/

structure CardCacheEntry where
  role : CardRole
  trackId : TrackId
deriving DecidableEq

def CardRoleCache := CardId → Option CardCacheEntry

namespace CardRoleCache

def new : CardRoleCache := fun _ => none

def get (cache : CardRoleCache) (id : CardId) : Option CardRole := (cache id).map (·.role)

def trackOf (cache : CardRoleCache) (id : CardId) : Option TrackId := (cache id).map (·.trackId)

def insert (cache : CardRoleCache) (id : CardId) (role : CardRole) (trackId : TrackId) :
    CardRoleCache :=
  Function.update cache id (some { role, trackId })

@[simp] theorem insert_self (cache : CardRoleCache) (id : CardId) (role : CardRole)
    (trackId : TrackId) : cache.insert id role trackId id = some { role, trackId } :=
  Function.update_self ..

@[simp] theorem insert_of_ne (cache : CardRoleCache) {id other : CardId} (role : CardRole)
    (trackId : TrackId) (differs : other ≠ id) : cache.insert id role trackId other = cache other :=
  Function.update_of_ne differs ..

end CardRoleCache

def TrackAreaCache := TrackId → Option AreaId

namespace TrackAreaCache

def new : TrackAreaCache := fun _ => none

def areaOf (cache : TrackAreaCache) (id : TrackId) : Option AreaId := cache id

def insert (cache : TrackAreaCache) (track : TrackId) (area : AreaId) : TrackAreaCache :=
  Function.update cache track (some area)

@[simp] theorem insert_self (cache : TrackAreaCache) (track : TrackId) (area : AreaId) :
    cache.insert track area track = some area :=
  Function.update_self ..

@[simp] theorem insert_of_ne (cache : TrackAreaCache) {track other : TrackId} (area : AreaId)
    (differs : other ≠ track) : cache.insert track area other = cache other :=
  Function.update_of_ne differs ..

end TrackAreaCache

/-! ## The rules -/

inductive RoleViolation where
  | emptyAiCardId
  | sessionActorUnresolved (session : WorkerSessionId)
  | sessionRowMissing (session : WorkerSessionId)
  | sessionNotActive (session : WorkerSessionId)
  | cardlessSessionDenied (session : WorkerSessionId)
  | sessionResolutionError (session : WorkerSessionId)
  | sessionPlannerRoleMismatch (session : WorkerSessionId) (card : CardId)
  | notPlannerForTrack (actor : Text)
  | notPlannerForDispatch (actor : Text)
  | notKernelForTaskDispatched (actor : Text)
  | notKernelForTaskContextFrozen (actor : Text)
  | notKernelForTaskContextAdvanced (actor : Text)
  | notKernelForTaskGitDeliverySettled (actor : Text)
  | invalidAssistantInput
  | notKernelForTrackWakeRequested (actor : Text)
  | notKernelForTaskGateResult (actor : Text)
  | notPlannerForAsk (actor : Text)
  | notUserForAskAnswered (actor : Text)
  | notPlannerForAskWithdrawn (actor : Text)
  | notPlannerForTaskRegate (actor : Text)
  | notSubmitterPluginForProposalSubmitted (actor payloadPlugin : Text)
  | notUserForProposalResolved (decision actor : Text)
  | notSubmitterPluginForProposalWithdrawn (actor payloadPlugin : Text)
  | workerOutOfScope (card : CardId) (scope : Text)
  | assistantOutOfScope (card : CardId) (scope : Text)
  | unknownCard (card : CardId)
  | roleLookupFailed (subject : Text)
deriving DecidableEq

abbrev Verdict := Except RoleViolation Unit

namespace ActorId

/-- The card of a card-keyed actor. -/
def cardId : ActorId → Option CardId
  | .aiCodex card | .aiClaude card | .aiManagedCard card | .aiPlanner card => some card
  | _ => none

/-- The session of a session-keyed actor. -/
def sessionId : ActorId → Option WorkerSessionId
  | .aiPlannerSession session | .aiCodexSession session | .aiClaudeSession session
  | .aiManagedSession session => some session
  | _ => none

def isKernel : ActorId → Bool
  | .kernel | .kernelDispatcher => true
  | _ => false

/-- An actor that holds the planner's authority. -/
def isPlanner (cache : CardRoleCache) : ActorId → Bool
  | .aiPlanner card => cache.get card = some .planner
  | _ => false

end ActorId

/-- An empty identifier must never match a real card. -/
def emptyIdRule (actor : ActorId) : Verdict :=
  match actor.cardId, actor.sessionId with
  | some [], _ => .error .emptyAiCardId
  | _, some [] => .error (.sessionActorUnresolved [])
  | _, _ => .ok ()

/-- The surrogate of a managed session cannot take the authority of another role. -/
def managedCardRule (cache : CardRoleCache) : ActorId → Verdict
  | .aiManagedCard card =>
    if cache.get card = some .assistant then .ok () else .error (.unknownCard card)
  | _ => .ok ()

/-- Users, the kernel and plugins may; of the agents, only a planner. -/
def plannerOnly (violation : Text → RoleViolation) (cache : CardRoleCache) : ActorId → Verdict
  | .user | .kernel | .kernelDispatcher | .plugin _ => .ok ()
  | .aiPlanner card =>
    if cache.get card = some .planner then .ok ()
    else .error (violation (labelled "AiPlanner" card))
  | .aiCodex card => .error (violation (labelled "AiCodex" card))
  | .aiClaude card => .error (violation (labelled "AiClaude" card))
  | .aiManagedCard card => .error (violation (labelled "AiManagedCard" card))
  | .aiPlannerSession session | .aiCodexSession session | .aiClaudeSession session
  | .aiManagedSession session => .error (.sessionActorUnresolved session)

/-- Only the kernel may, and the user where `user` says so. -/
def kernelOnly (violation : Text → RoleViolation) (user : Bool) : ActorId → Verdict
  | .kernel | .kernelDispatcher => .ok ()
  | .user => if user then .ok () else .error (violation "User".toList)
  | .plugin name => .error (violation (labelled "Plugin" name))
  | .aiPlanner card => .error (violation (labelled "AiPlanner" card))
  | .aiCodex card => .error (violation (labelled "AiCodex" card))
  | .aiClaude card => .error (violation (labelled "AiClaude" card))
  | .aiManagedCard card => .error (violation (labelled "AiManagedCard" card))
  | .aiPlannerSession session | .aiCodexSession session | .aiClaudeSession session
  | .aiManagedSession session => .error (.sessionActorUnresolved session)

/-- Only a planner may; not even the kernel. -/
def plannerAlone (violation : Text → RoleViolation) (cache : CardRoleCache) (actor : ActorId) :
    Verdict :=
  if actor.isPlanner cache then .ok () else .error (violation actor.display)

def trackUpdatedRule (cache : CardRoleCache) (actor : ActorId) : Event → Verdict
  | .trackUpdated => plannerOnly .notPlannerForTrack cache actor
  | _ => .ok ()

def dispatchRule (cache : CardRoleCache) (actor : ActorId) : Event → Verdict
  | .codexWorkerRequested | .terminalWorkerRequested | .planUpdated =>
    plannerOnly .notPlannerForDispatch cache actor
  | _ => .ok ()

def taskDispatchedRule (actor : ActorId) : Event → Verdict
  | .taskDispatched => kernelOnly .notKernelForTaskDispatched true actor
  | _ => .ok ()

def taskContextFrozenRule (actor : ActorId) : Event → Verdict
  | .taskContextFrozen => kernelOnly .notKernelForTaskContextFrozen false actor
  | _ => .ok ()

def taskGitDeliverySettledRule (quote : Text → Text) (actor : ActorId) : Event → Verdict
  | .taskGitDeliverySettled =>
    if actor.isKernel then .ok ()
    else .error (.notKernelForTaskGitDeliverySettled (actor.debug quote))
  | _ => .ok ()

def assistantInputRule (actor : ActorId) (scope : EventScope) : Event → Verdict
  | .assistantInputRequested cardId trackId =>
    if ¬actor.isKernel ∨ scope.cardId ≠ some cardId ∨ scope.trackId ≠ some trackId then
      .error .invalidAssistantInput
    else .ok ()
  | _ => .ok ()

def trackWakeRule (quote : Text → Text) (actor : ActorId) : Event → Verdict
  | .trackWakeRequested =>
    if actor.isKernel then .ok ()
    else .error (.notKernelForTrackWakeRequested (actor.debug quote))
  | _ => .ok ()

def taskContextAdvancedRule (actor : ActorId) : Event → Verdict
  | .taskContextAdvanced => kernelOnly .notKernelForTaskContextAdvanced false actor
  | _ => .ok ()

def taskGateResultRule (actor : ActorId) : Event → Verdict
  | .taskGateResult => kernelOnly .notKernelForTaskGateResult true actor
  | _ => .ok ()

def askRequestedRule (cache : CardRoleCache) (actor : ActorId) : Event → Verdict
  | .askRequested => plannerAlone .notPlannerForAsk cache actor
  | _ => .ok ()

def askAnsweredRule (actor : ActorId) : Event → Verdict
  | .askAnswered =>
    if actor = .user then .ok () else .error (.notUserForAskAnswered actor.display)
  | _ => .ok ()

def askWithdrawnRule (cache : CardRoleCache) (actor : ActorId) : Event → Verdict
  | .askWithdrawn => plannerAlone .notPlannerForAskWithdrawn cache actor
  | _ => .ok ()

def taskRegateRule (cache : CardRoleCache) (actor : ActorId) : Event → Verdict
  | .taskRegateRequested => plannerAlone .notPlannerForTaskRegate cache actor
  | _ => .ok ()

def proposalSubmittedRule (actor : ActorId) : Event → Verdict
  | .proposalSubmitted pluginId =>
    if actor = .plugin pluginId then .ok ()
    else .error (.notSubmitterPluginForProposalSubmitted actor.display pluginId)
  | _ => .ok ()

def proposalResolvedRule (actor : ActorId) : Event → Verdict
  | .proposalResolved pluginId .withdrawn =>
    if actor = .plugin pluginId then .ok ()
    else .error (.notSubmitterPluginForProposalWithdrawn actor.display pluginId)
  | .proposalResolved _ decision =>
    if actor = .user then .ok ()
    else .error (.notUserForProposalResolved decision.asStr actor.display)
  | _ => .ok ()

/-! ## The scope of a card -/

/-- The scope is that of a card; its track and area are the home of the acting card. -/
def enforceCardScope (quote : Text → Text) (card : CardId) (scope : EventScope)
    (cache : CardRoleCache) (areas : TrackAreaCache) (targetAllowed : CardId → TrackId → Bool)
    (violation : CardId → Text → RoleViolation) : Verdict :=
  match scope with
  | .card target scopeTrack scopeArea =>
    match cache.trackOf card with
    | none => .error (violation card ("scope.card mismatch: ".toList ++ scope.debug quote))
    | some home =>
      if ¬targetAllowed target home then
        .error (violation card ("scope.card mismatch: ".toList ++ scope.debug quote))
      else if scopeTrack ≠ home then
        .error (violation card ("scope.track mismatch: home=".toList ++ home ++
          ", scope=".toList ++ scope.debug quote))
      else match areas.areaOf home with
        | none => .error (.roleLookupFailed (labelled "tracks.area_id" home))
        | some area =>
          if scopeArea ≠ area then
            .error (violation card ("scope.area mismatch: home=".toList ++ area ++
              ", scope=".toList ++ scope.debug quote))
          else .ok ()
  | _ => .error (violation card ("scope.card mismatch: ".toList ++ scope.debug quote))

def enforceCardSelfScope (quote : Text → Text) (card : CardId) (scope : EventScope)
    (cache : CardRoleCache) (areas : TrackAreaCache) : Verdict :=
  enforceCardScope quote card scope cache areas (fun target _ => target = card) .workerOutOfScope

/-- The own scope, or that of the report card of the home track. -/
def enforceAssistantScope (quote : Text → Text) (card : CardId) (scope : EventScope)
    (cache : CardRoleCache) (areas : TrackAreaCache) : Verdict :=
  enforceCardScope quote card scope cache areas
    (fun target home => target = card ∨
      cache.get target = some .reportCard ∧ cache.trackOf target = some home)
    .assistantOutOfScope

/-- The observations of a worker's own process. -/
def isOwnWorkerLifecycleEvent : ActorId → Event → Bool
  | .aiCodex _, .codexHook => true
  | .aiClaude _, .claudeHook => true
  | .aiCodex _, .harnessUserMessageEnqueued | .aiClaude _, .harnessUserMessageEnqueued
  | .aiManagedCard _, .harnessUserMessageEnqueued => true
  | _, _ => false

/-- The card and the name of an actor that is confined to its card. -/
def ActorId.worker : ActorId → Option (CardId × String)
  | .aiCodex card => some (card, "AiCodex")
  | .aiClaude card => some (card, "AiClaude")
  | .aiManagedCard card => some (card, "AiManagedCard")
  | _ => none

def workerRule (quote : Text → Text) (actor : ActorId) (event : Event) (scope : EventScope)
    (cache : CardRoleCache) (areas : TrackAreaCache) : Verdict :=
  match actor.worker with
  | none => .ok ()
  | some (card, label) => match cache.get card with
    | none => .error (.unknownCard card)
    | some .worker => enforceCardSelfScope quote card scope cache areas
    | some .planner =>
      if isOwnWorkerLifecycleEvent actor event then
        enforceCardSelfScope quote card scope cache areas
      else .error (.notPlannerForTrack (labelled label card ++
        " — card is Planner-roled but actor variant is not AiPlanner".toList))
    | some .reportCard => enforceCardSelfScope quote card scope cache areas
    | some .assistant => enforceAssistantScope quote card scope cache areas

def sessionRule (actor : ActorId) : Verdict :=
  match actor.sessionId with
  | some session => .error (.sessionActorUnresolved session)
  | none => .ok ()

/-- The rules about single kinds of events, in the order of the source. -/
def eventRules (quote : Text → Text) (actor : ActorId) (event : Event) (scope : EventScope)
    (cache : CardRoleCache) : Verdict := do
  trackUpdatedRule cache actor event
  dispatchRule cache actor event
  taskDispatchedRule actor event
  taskContextFrozenRule actor event
  taskGitDeliverySettledRule quote actor event
  assistantInputRule actor scope event
  trackWakeRule quote actor event
  taskContextAdvancedRule actor event
  taskGateResultRule actor event
  askRequestedRule cache actor event
  askAnsweredRule actor event
  askWithdrawnRule cache actor event
  taskRegateRule cache actor event
  proposalSubmittedRule actor event
  proposalResolvedRule actor event

def enforceRole (quote : Text → Text) (actor : ActorId) (event : Event) (scope : EventScope)
    (cache : CardRoleCache) (areas : TrackAreaCache) : Verdict := do
  emptyIdRule actor
  managedCardRule cache actor
  eventRules quote actor event scope cache
  sessionRule actor
  workerRule quote actor event scope cache areas

/-! ## What the gate allows a worker -/

/-- Whose authority a kind of event takes. -/
inductive Reserve where
  | planner
  | kernel
  | user
  | plugin
deriving DecidableEq

def Event.reservedFor : Event → Option Reserve
  | .trackUpdated | .codexWorkerRequested | .terminalWorkerRequested | .planUpdated
  | .askRequested | .askWithdrawn | .taskRegateRequested => some .planner
  | .taskDispatched | .taskContextFrozen | .taskContextAdvanced | .taskGitDeliverySettled
  | .assistantInputRequested _ _ | .trackWakeRequested | .taskGateResult => some .kernel
  | .askAnswered => some .user
  | .proposalSubmitted _ => some .plugin
  | .proposalResolved _ .withdrawn => some .plugin
  | .proposalResolved _ _ => some .user
  | _ => none

section Allowed

variable {quote : Text → Text} {actor : ActorId} {event : Event} {scope : EventScope}
  {cache : CardRoleCache} {areas : TrackAreaCache} {card : CardId} {label : String}

theorem enforceCardScope_ok {targetAllowed : CardId → TrackId → Bool}
    {violation : CardId → Text → RoleViolation} :
    enforceCardScope quote card scope cache areas targetAllowed violation = .ok () ↔
      ∃ target home area, scope = .card target home area ∧ cache.trackOf card = some home ∧
        targetAllowed target home = true ∧ areas home = some area := by
  constructor
  · intro allowed
    cases scope with
    | card target =>
      simp only [enforceCardScope] at allowed
      split at allowed
      · cases allowed
      next home isHome =>
      split at allowed
      · cases allowed
      next isTarget =>
      split at allowed
      · cases allowed
      next sameTrack =>
      split at allowed
      · cases allowed
      next area isArea =>
      split at allowed
      · cases allowed
      next sameArea =>
      obtain rfl := not_not.mp sameTrack
      obtain rfl := not_not.mp sameArea
      exact ⟨target, _, _, rfl, isHome, not_not.mp isTarget, isArea⟩
    | _ => cases allowed
  · rintro ⟨_, _, _, rfl, isHome, isTarget, isArea⟩
    simp [enforceCardScope, isHome, isTarget, TrackAreaCache.areaOf, isArea]

/-! A worker is not the kernel, a user, a plugin or a planner. -/

section

variable (isWorker : actor.worker = some (card, label))

include isWorker

theorem cases_worker :
    actor = .aiCodex card ∨ actor = .aiClaude card ∨ actor = .aiManagedCard card := by
  cases actor <;> simp_all [ActorId.worker]

theorem plannerOnly_worker {violation : Text → RoleViolation} :
    plannerOnly violation cache actor ≠ .ok () := by
  rcases cases_worker isWorker with rfl | rfl | rfl <;> nofun

theorem kernelOnly_worker {violation : Text → RoleViolation} :
    kernelOnly violation user actor ≠ .ok () := by
  rcases cases_worker isWorker with rfl | rfl | rfl <;> nofun

theorem plannerAlone_worker {violation : Text → RoleViolation} :
    plannerAlone violation cache actor ≠ .ok () := by
  rcases cases_worker isWorker with rfl | rfl | rfl <;> nofun

theorem isKernel_worker : actor.isKernel = false := by
  rcases cases_worker isWorker with rfl | rfl | rfl <;> rfl

theorem ne_user_worker : actor ≠ .user := by
  rcases cases_worker isWorker with rfl | rfl | rfl <;> nofun

theorem ne_plugin_worker (name : Text) : actor ≠ .plugin name := by
  rcases cases_worker isWorker with rfl | rfl | rfl <;> nofun

theorem eventRules_ok_worker (allowed : eventRules quote actor event scope cache = .ok ()) :
    event.reservedFor = none := by
  simp only [eventRules, Fallible.bind_eq_ok, Unique.exists_iff] at allowed
  obtain ⟨trackUpdated, dispatch, taskDispatched, contextFrozen, gitDelivery, assistantInput,
    trackWake, contextAdvanced, gateResult, askRequested, askAnswered, askWithdrawn, regate,
    submitted, resolved⟩ := allowed
  cases event with
  | trackUpdated => exact absurd trackUpdated (plannerOnly_worker isWorker)
  | codexWorkerRequested | terminalWorkerRequested | planUpdated =>
    exact absurd dispatch (plannerOnly_worker isWorker)
  | taskDispatched => exact absurd taskDispatched (kernelOnly_worker isWorker)
  | taskContextFrozen => exact absurd contextFrozen (kernelOnly_worker isWorker)
  | taskContextAdvanced => exact absurd contextAdvanced (kernelOnly_worker isWorker)
  | taskGateResult => exact absurd gateResult (kernelOnly_worker isWorker)
  | taskGitDeliverySettled =>
    simp [taskGitDeliverySettledRule, isKernel_worker isWorker] at gitDelivery
  | trackWakeRequested => simp [trackWakeRule, isKernel_worker isWorker] at trackWake
  | assistantInputRequested =>
    simp [assistantInputRule, isKernel_worker isWorker] at assistantInput
  | askRequested => exact absurd askRequested (plannerAlone_worker isWorker)
  | askWithdrawn => exact absurd askWithdrawn (plannerAlone_worker isWorker)
  | taskRegateRequested => exact absurd regate (plannerAlone_worker isWorker)
  | askAnswered => simp [askAnsweredRule, ne_user_worker isWorker] at askAnswered
  | proposalSubmitted => simp [proposalSubmittedRule, ne_plugin_worker isWorker] at submitted
  | proposalResolved _ decision =>
    cases decision <;>
      simp [proposalResolvedRule, ne_plugin_worker isWorker, ne_user_worker isWorker] at resolved
  | _ => rfl

end

/-- The scope is that of a card in the home of the acting card, as the caches know it. -/
def WithinHome (cache : CardRoleCache) (areas : TrackAreaCache) (actor : ActorId) (event : Event)
    (scope : EventScope) (card : CardId) : Prop :=
  ∃ entry area target, cache card = some entry ∧ areas entry.trackId = some area ∧
    scope = .card target entry.trackId area ∧
    (target = card ∨ entry.role = .assistant ∧ ∃ report, cache target = some report ∧
      report.role = .reportCard ∧ report.trackId = entry.trackId) ∧
    (entry.role = .planner → isOwnWorkerLifecycleEvent actor event = true)

/-- A write that is confined to the card: its kind is not reserved, and its scope is at home. -/
structure Confined (cache : CardRoleCache) (areas : TrackAreaCache) (actor : ActorId)
    (event : Event) (scope : EventScope) (card : CardId) : Prop where
  unreserved : event.reservedFor = none
  home : WithinHome cache areas actor event scope card

theorem get_eq_some (isRole : cache.get card = some role) :
    ∃ entry, cache card = some entry ∧ entry.role = role := map_eq_some_iff.mp isRole

theorem trackOf_eq_some (isHome : cache.trackOf card = some home) :
    ∃ entry, cache card = some entry ∧ entry.trackId = home := map_eq_some_iff.mp isHome

/-- The scope of the card itself. -/
theorem enforceCardSelfScope_ok
    (allowed : enforceCardSelfScope quote card scope cache areas = .ok ()) :
    ∃ entry area, cache card = some entry ∧ areas entry.trackId = some area ∧
      scope = .card card entry.trackId area := by
  obtain ⟨_, _, area, rfl, isHome, isTarget, isArea⟩ := enforceCardScope_ok.mp allowed
  obtain ⟨entry, isEntry, rfl⟩ := trackOf_eq_some isHome
  obtain rfl := of_decide_eq_true isTarget
  exact ⟨entry, area, isEntry, isArea, rfl⟩

theorem enforceAssistantScope_ok
    (allowed : enforceAssistantScope quote card scope cache areas = .ok ()) :
    ∃ entry area target, cache card = some entry ∧ areas entry.trackId = some area ∧
      scope = .card target entry.trackId area ∧
      (target = card ∨ ∃ report, cache target = some report ∧ report.role = .reportCard ∧
        report.trackId = entry.trackId) := by
  obtain ⟨target, _, area, rfl, isHome, isTarget, isArea⟩ := enforceCardScope_ok.mp allowed
  obtain ⟨entry, isEntry, rfl⟩ := trackOf_eq_some isHome
  refine ⟨entry, area, target, isEntry, isArea, rfl, ?_⟩
  rcases of_decide_eq_true isTarget with own | ⟨isRole, sameTrack⟩
  · exact .inl own
  · obtain ⟨report, isReport, isRole⟩ := get_eq_some isRole
    obtain ⟨_, isReport', sameTrack⟩ := trackOf_eq_some sameTrack
    cases isReport.symm.trans isReport'
    exact .inr ⟨report, isReport, isRole, sameTrack⟩

theorem workerRule_ok (isWorker : actor.worker = some (card, label))
    (allowed : workerRule quote actor event scope cache areas = .ok ()) :
    WithinHome cache areas actor event scope card := by
  simp only [workerRule, isWorker] at allowed
  have self (allowed : enforceCardSelfScope quote card scope cache areas = .ok ())
      (observes : cache.get card = some .planner → isOwnWorkerLifecycleEvent actor event = true) :
      WithinHome cache areas actor event scope card := by
    obtain ⟨entry, area, isEntry, isArea, isScope⟩ := enforceCardSelfScope_ok allowed
    refine ⟨entry, area, card, isEntry, isArea, isScope, .inl rfl, fun planner => observes ?_⟩
    rw [CardRoleCache.get, isEntry, map_some, planner]
  split at allowed
  · cases allowed
  · next isRole => exact self allowed fun planner => by rw [isRole] at planner; cases planner
  · split at allowed
    · next observes => exact self allowed fun _ => observes
    · cases allowed
  · next isRole => exact self allowed fun planner => by rw [isRole] at planner; cases planner
  · next isRole =>
    obtain ⟨entry, area, target, isEntry, isArea, isScope, reaches⟩ :=
      enforceAssistantScope_ok allowed
    have assistant : entry.role = .assistant := by
      rw [CardRoleCache.get, isEntry] at isRole
      exact some.inj isRole
    refine ⟨entry, area, target, isEntry, isArea, isScope, reaches.imp_right fun report =>
      ⟨assistant, report⟩, fun planner => ?_⟩
    cases assistant.symm.trans planner

/-- **What the gate allows a worker.** -/
theorem enforceRole_ok_worker (isWorker : actor.worker = some (card, label))
    (allowed : enforceRole quote actor event scope cache areas = .ok ()) :
    Confined cache areas actor event scope card := by
  simp only [enforceRole, Fallible.bind_eq_ok, Unique.exists_iff] at allowed
  obtain ⟨-, -, events, -, worker⟩ := allowed
  exact ⟨eventRules_ok_worker isWorker events, workerRule_ok isWorker worker⟩

end Allowed

/-! ## What the gate looks at -/

/-- Two pairs of caches agree on every key that the gate can look up. -/
structure Agree (actor : ActorId) (scope : EventScope) (cache cache' : CardRoleCache)
    (areas areas' : TrackAreaCache) : Prop where
  acting : ∀ card, actor.cardId = some card → cache card = cache' card
  target : ∀ card, scope.cardId = some card → cache card = cache' card
  area : ∀ card entry, actor.cardId = some card → cache card = some entry →
    areas entry.trackId = areas' entry.trackId

section Congruence

variable {quote : Text → Text} {actor : ActorId} {event : Event} {scope : EventScope}
  {cache cache' : CardRoleCache} {areas areas' : TrackAreaCache}

section

variable (agree : Agree actor scope cache cache' areas areas')

include agree

theorem Agree.get (isActing : actor.cardId = some card) : cache.get card = cache'.get card := by
  rw [CardRoleCache.get, agree.acting card isActing, CardRoleCache.get]

theorem Agree.managedCardRule : managedCardRule cache actor = managedCardRule cache' actor := by
  cases actor with
  | aiManagedCard =>
    rw [Authority.managedCardRule, Authority.managedCardRule, agree.get rfl]
  | _ => rfl

theorem Agree.plannerOnly (violation : Text → RoleViolation) :
    plannerOnly violation cache actor = plannerOnly violation cache' actor := by
  cases actor with
  | aiPlanner => rw [Authority.plannerOnly, Authority.plannerOnly, agree.get rfl]
  | _ => rfl

theorem Agree.plannerAlone (violation : Text → RoleViolation) :
    plannerAlone violation cache actor = plannerAlone violation cache' actor := by
  cases actor with
  | aiPlanner card =>
    have same : (ActorId.aiPlanner card).isPlanner cache =
        (ActorId.aiPlanner card).isPlanner cache' := by
      rw [ActorId.isPlanner, ActorId.isPlanner, agree.get rfl]
    rw [Authority.plannerAlone, Authority.plannerAlone, same]
  | _ => rfl

theorem Agree.eventRules :
    eventRules quote actor event scope cache = eventRules quote actor event scope cache' := by
  simp only [Authority.eventRules, trackUpdatedRule, dispatchRule, askRequestedRule,
    askWithdrawnRule, taskRegateRule, agree.plannerOnly, agree.plannerAlone]

theorem Agree.enforceCardScope (isActing : actor.cardId = some card)
    {targetAllowed targetAllowed' : CardId → TrackId → Bool}
    (targets : ∀ target home, scope.cardId = some target →
      targetAllowed target home = targetAllowed' target home)
    (violation : CardId → Text → RoleViolation) :
    enforceCardScope quote card scope cache areas targetAllowed violation =
      enforceCardScope quote card scope cache' areas' targetAllowed' violation := by
  cases scope with
  | card target =>
    simp only [Authority.enforceCardScope, CardRoleCache.trackOf, ← agree.acting card isActing,
      targets target _ rfl]
    cases isEntry : cache card with
    | none => rfl
    | some entry => simp only [map_some, TrackAreaCache.areaOf,
        agree.area card entry isActing isEntry]
  | _ => rfl

theorem Agree.workerRule :
    workerRule quote actor event scope cache areas =
      workerRule quote actor event scope cache' areas' := by
  unfold Authority.workerRule
  split
  · rfl
  next card label isWorker =>
  have isActing : actor.cardId = some card := by
    rcases cases_worker isWorker with rfl | rfl | rfl <;> rfl
  have self : enforceCardSelfScope quote card scope cache areas =
      enforceCardSelfScope quote card scope cache' areas' :=
    agree.enforceCardScope isActing (fun _ _ _ => rfl) _
  have assistant : enforceAssistantScope quote card scope cache areas =
      enforceAssistantScope quote card scope cache' areas' := by
    refine agree.enforceCardScope isActing (fun target home isTarget => ?_) _
    rw [CardRoleCache.get, CardRoleCache.trackOf, agree.target target isTarget]
    rfl
  rw [self, assistant, agree.get isActing]

/-- The gate looks at nothing but these keys. -/
theorem Agree.enforceRole :
    enforceRole quote actor event scope cache areas =
      enforceRole quote actor event scope cache' areas' := by
  simp only [Authority.enforceRole, agree.managedCardRule, agree.eventRules, agree.workerRule]

end

end Congruence

end NeigeCalm.Authority
