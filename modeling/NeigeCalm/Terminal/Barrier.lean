import NeigeCalm.Terminal.Input
import NeigeCalm.Terminal.Ownership

/-!
# The input barrier

The serial lock has one holder, a pump or the writer (`Sound`); the writer holds it from before the
admission of a connection's write until the write is acknowledged or abandoned, and an abandoned
write leaves the barrier uncertain.  `Step` says what one act can do.
-/

namespace NeigeCalm.Terminal

open List TerminalSessionState

namespace TerminalSessionState

variable {state : TerminalSessionState} {registry : OwnerRegistry} {ctx : SessionContext}

theorem onClientFrame_stays_attached (attached : state.attached = true) :
    (state.onClientFrame msg buffer registry ctx).state.attached = true := by
  rw [onClientFrame, if_pos attached, processFrame_served.attached_eq, demote_attached, attached]

/-- A release issues no lease. -/
theorem releaseOwner_generation :
    (state.releaseOwner registry).2.2.generation = registry.generation := by
  have moved : state.Moved registry _ _ := releaseOwner_moved
  cases moved with
  | kept same => exact congrArg OwnerRegistry.generation same
  | granted _ _ _ _ cached => cases cached
  | released _ _ _ _ same => exact same

/-- Of the frames of an attached client, only a claim is given a lease. -/
theorem onClientFrame_generation (attached : state.attached = true) (noClaim : msg ≠ .ownerClaim) :
    (state.onClientFrame msg buffer registry ctx).registry.generation = registry.generation := by
  rw [onClientFrame, if_pos attached]
  have served : Served (state.demote registry) registry msg
    ((state.demote registry).processFrame msg registry ctx) := processFrame_served
  generalize (state.demote registry).processFrame msg registry ctx = handled at served
  cases served with
  | idle | acked | typed | killed | resized => rfl
  | claimed => exact absurd rfl noClaim
  | released => exact releaseOwner_generation

/-- Only an input is written to the terminal as it is. -/
theorem processFrame_quiet {data : Bytes} {inputSeq : Nat}
    (noInput : ∀ data inputSeq, msg ≠ .input data inputSeq) :
    .writeToPty data inputSeq ∉ (state.processFrame msg registry ctx).effects := by
  cases msg with simp only [processFrame]
  | input data inputSeq => exact absurd rfl (noInput data inputSeq)
  | ownerClaim | ownerRelease | kill | resizeCommit | terminalThemeUpdate =>
    repeat' split
    all_goals simp [notOwnerError]
  | renderAck | clientHello | answerQuestion => simp

end TerminalSessionState

namespace Input

/-! ## Parts -/

theorem flatten_writeParts :
    (writeParts data shape).flatten = data := by
  unfold writeParts
  split
  · simp
  · split
    · next splits =>
      obtain ⟨_, rfl⟩ := getLast?_eq_some_iff.mp splits.2
      simp
    · simp

theorem writeParts_ne_nil (data : Bytes) (shape : WriteShape) : writeParts data shape ≠ [] := by
  unfold writeParts
  split
  · simp
  · split <;> simp

/-! ## Who holds the serial lock -/

def Writer.holds : Writer ι → Bool
  | .scoping _ _ | .fencing _ _ => true
  | .writing job => job.write.guarded
  | _ => false

def PumpStage.holds : PumpStage → Bool
  | .greetingScope _ | .claimingScope _ => true
  | _ => false

/-- The stages after a handshake. -/
def PumpStage.attached : PumpStage → Bool
  | .serving | .claiming _ | .claimingScope _ => true
  | _ => false

/-- The reply of the supervisor to a part, with the sequence number that is reserved for it. -/
def Event.acked (id first index : Nat) : Event ι :=
  .replied id index (first + index + 1) (.writeAck (first + index + 1))

/-- The write is what the act puts into the queue: a client's input, or the kernel's. -/
inductive Act.Inputs : Act ι → PtyWrite ι → Prop
  | client {connection : ι} {data : Bytes} {inputSeq : Nat} {shape : WriteShape}
      {focusEventTracking : Bool} {buffer : ByteRing} {ctx : SessionContext}
      (permission : InputPermission) :
      Inputs (.frame connection (.input data inputSeq) shape focusEventTracking buffer ctx)
        { data, inputSeq, ack := 0 < inputSeq, authority := .connection permission connection,
          shape }
  | kernel {data : Bytes} {inputSeq : Nat} {ack : Bool} {shape : WriteShape} :
      Inputs (.kernelWrite data inputSeq ack shape)
        { data, inputSeq, ack, authority := .trustedKernel, shape }

/-- What grants input authority or rests on it. -/
def Event.grants : Event ι → Bool
  | .greeted _ | .claimed _ | .leased _ | .admitted _ => true
  | _ => false

namespace Renderer

/-- A started write is one of the queue, the last that was received. -/
structure Placed (r : Renderer ι) (id : Nat) (write : PtyWrite ι) : Prop where
  item : r.items[id]? = some (.write write)
  last : id + 1 = r.next

def WriterPlaced (r : Renderer ι) : Writer ι → Prop
  | .granting id write | .scoping id write | .fencing id write =>
    r.Placed id write ∧ write.guarded = true
  | .writing job => r.Placed job.id job.write ∧
      (writeParts job.write.data job.write.shape).length = job.index + 1 + job.rest.length ∧
      (job.handed = true → job.left = [])
  | .idle | .controlling _ | .ended => True

structure Sound (r : Renderer ι) : Prop where
  pumps : ∀ i, r.serial = some (.pump i) ↔ (r.pumps i).stage.holds = true
  writer : r.serial = some .writer ↔ r.writer.holds = true
  certain : r.uncertain = true → r.writer = .ended ∧ r.serial = none
  attached : ∀ i, (r.pumps i).stage.attached = true → (r.pumps i).session.attached = true
  placed : r.WriterPlaced r.writer
  bound : r.next ≤ r.items.length

theorem sound_init (awaitingSpawn : Bool) : Sound (init awaitingSpawn : Renderer ι) where
  pumps _ := ⟨nofun, nofun⟩
  writer := ⟨nofun, nofun⟩
  certain := nofun
  attached _ := nofun
  placed := trivial
  bound := Nat.le_refl 0

/-- What happens beside the writer. -/
structure Aside (r r' : Renderer ι) : Prop where
  writer : r'.writer = r.writer
  uncertain : r'.uncertain = r.uncertain
  next : r'.next = r.next
  items : ∃ more, r'.items = r.items ++ more

/-- The places in the queue do not depend on anything else. -/
theorem WriterPlaced.grow {r r' : Renderer ι} {writer : Writer ι} (placed : r.WriterPlaced writer)
    (next : r'.next = r.next) (items : ∃ more, r'.items = r.items ++ more) :
    r'.WriterPlaced writer := by
  have place : ∀ {id : Nat} {write : PtyWrite ι}, r.Placed id write → r'.Placed id write := by
    intro id write isPlaced
    obtain ⟨_, items⟩ := items
    refine ⟨?_, isPlaced.last.trans next.symm⟩
    rw [items, getElem?_append_left (List.getElem?_eq_some_iff.mp isPlaced.item).1]
    exact isPlaced.item
  cases writer with
  | granting | scoping | fencing | writing => exact placed.imp_left place
  | idle | controlling | ended => trivial

theorem WriterPlaced.aside {r r' : Renderer ι} {writer : Writer ι} (placed : r.WriterPlaced writer)
    (aside : Aside r r') : r'.WriterPlaced writer := placed.grow aside.next aside.items

/-! ## The queue -/

/-- Only the queue grows, and if it is to be quiet, by nothing that carries an input number. -/
def Queued (quiet : Prop) (r r' : Renderer ι) : Prop :=
  ∃ more, r' = { r with items := r.items ++ more } ∧
    (quiet → ∀ write, .write write ∈ more → write.inputSeq = 0)

/-- A write with an input number is put into the queue by an input, which puts nothing else. -/
def Puts (act : Act ι) (r r' : Renderer ι) : Prop :=
  ∃ more, r'.items = r.items ++ more ∧
    ∀ write, .write write ∈ more → 0 < write.inputSeq → more = [.write write] ∧ act.Inputs write

section Queue

variable {quiet quiet' : Prop} {r r' r'' : Renderer ι}

theorem queued_refl (r : Renderer ι) : Queued quiet r r := ⟨[], by rw [append_nil], nofun⟩

theorem Queued.trans (first : Queued quiet r r') (second : Queued quiet r' r'') :
    Queued quiet r r'' := by
  obtain ⟨more, rfl, isQuiet⟩ := first
  obtain ⟨more', rfl, isQuiet'⟩ := second
  refine ⟨more ++ more', by simp only [append_assoc], fun all write member => ?_⟩
  rcases mem_append.mp member with before | after
  · exact isQuiet all write before
  · exact isQuiet' all write after

theorem Queued.mono (queued : Queued quiet r r') (weaker : quiet' → quiet) :
    Queued quiet' r r' := by
  obtain ⟨more, same, isQuiet⟩ := queued
  exact ⟨more, same, isQuiet ∘ weaker⟩

theorem queued_enqueue (r : Renderer ι) {control : SupervisorControl ι}
    (isQuiet : quiet → ∀ write, control = .write write → write.inputSeq = 0) :
    Queued quiet r (r.enqueue control) := by
  unfold enqueue
  split
  · exact queued_refl r
  · exact ⟨[control], rfl, fun all write member => isQuiet all write (mem_singleton.mp member).symm⟩

theorem queued_requestResize (r : Renderer ι) (cols rows : Nat) :
    Queued quiet r (r.requestResize cols rows) := by
  unfold requestResize
  split
  · exact queued_refl r
  · exact queued_enqueue r fun _ => nofun

theorem queued_enact (authority : WriteAuthority ι) (shape : WriteShape) (focusEventTracking : Bool)
    (effects : List Effect) (r : Renderer ι) :
    Queued (∀ data inputSeq, .writeToPty data inputSeq ∉ effects) r
      (enact authority shape focusEventTracking effects r).1 := by
  induction effects generalizing r with
  | nil => exact queued_refl r
  | cons effect rest ih =>
    have goes : ∀ {r' : Renderer ι},
        Queued (∀ data inputSeq, .writeToPty data inputSeq ∉ effect :: rest) r r' →
        Queued (∀ data inputSeq, .writeToPty data inputSeq ∉ effect :: rest) r
          (enact authority shape focusEventTracking rest r').1 := fun {r'} first =>
      first.trans ((ih r').mono fun none data inputSeq member =>
        none data inputSeq (mem_cons_of_mem effect member))
    cases effect with
    | writeToPty data inputSeq =>
      unfold enact
      split
      · exact queued_refl r
      · exact goes (queued_enqueue r fun none => absurd mem_cons_self (none data inputSeq))
    | terminalThemeUpdate =>
      unfold enact
      split
      · exact goes (queued_refl r)
      split
      · exact queued_refl r
      · refine goes (queued_enqueue r ?_)
        rintro _ _ ⟨⟩
        rfl
    | resizePty cols rows => exact goes (queued_requestResize r cols rows)
    | killChild => exact goes (queued_enqueue r fun _ => nofun)
    | closeConnection => exact queued_refl r
    | sendToClient | broadcast | sendProtocolError | assignOwner | broadcastOwnerChanged =>
      exact goes (queued_refl r)

theorem queued_enactHandshake (effects : List Effect) (r : Renderer ι) :
    Queued True r (effects.foldl enactHandshake r) := by
  induction effects generalizing r with
  | nil => exact queued_refl r
  | cons _ _ ih =>
    refine .trans ?_ (ih _)
    unfold enactHandshake
    split
    · exact queued_requestResize r _ _
    · exact queued_refl r

theorem puts_quiet {act : Act ι} (queued : r'.items = r.items ++ more)
    (unnumbered : ∀ write, .write write ∈ more → write.inputSeq = 0) : Puts act r r' :=
  ⟨more, queued, fun write member numbered =>
    absurd (unnumbered write member) (Nat.ne_of_gt numbered)⟩

theorem puts_same {act : Act ι} (same : r'.items = r.items) : Puts act r r' :=
  puts_quiet (same.trans (append_nil _).symm) nofun

end Queue

/-! ## The pumps -/

section Pumps

/-- The connection does not hold the serial lock, and what it does leaves the lock alone. -/
structure Settled (r : Renderer ι) (connection : ι) (r' : Renderer ι) : Prop
    extends Aside r r' where
  serial : r'.serial = r.serial
  others : ∀ i, i ≠ connection → r'.pumps i = r.pumps i
  free : (r'.pumps connection).stage.holds = false
  greeted : (r'.pumps connection).stage.attached = true →
    (r'.pumps connection).session.attached = true

variable {r : Renderer ι}

theorem Sound.placedAt {writer : Writer ι} (sound : Sound r) (isWriter : r.writer = writer) :
    r.WriterPlaced writer := isWriter ▸ sound.placed

theorem Sound.away (sound : Sound r) (free : (r.pumps connection).stage.holds = false) :
    r.serial ≠ some (.pump connection) := fun holds => by
  cases ((sound.pumps connection).mp holds).symm.trans free

/-- What leaves the writer alone keeps its lock, its place and the certainty of the barrier. -/
theorem Sound.of_aside (sound : Sound r) (aside : Aside r r')
    (lock : r'.serial = some .writer ↔ r.serial = some .writer)
    (free : r'.uncertain = true → r.serial = none → r'.serial = none)
    (pumps : ∀ i, r'.serial = some (.pump i) ↔ (r'.pumps i).stage.holds = true)
    (attached : ∀ i, (r'.pumps i).stage.attached = true → (r'.pumps i).session.attached = true) :
    Sound r' where
  pumps := pumps
  writer := by
    rw [lock, aside.writer]
    exact sound.writer
  certain uncertain := by
    obtain ⟨ended, unlocked⟩ := sound.certain (aside.uncertain.symm.trans uncertain)
    exact ⟨aside.writer.trans ended, free uncertain unlocked⟩
  attached := attached
  placed := by
    rw [aside.writer]
    exact sound.placed.aside aside
  bound := by
    obtain ⟨_, items⟩ := aside.items
    rw [aside.next, items, length_append]
    exact Nat.le_add_right_of_le sound.bound

/-- The connection lets go of the lock, if it holds it, and settles. -/
theorem Sound.settled {serial : Option (Party ι)} (sound : Sound r)
    (lets : serial = r.serial ∧ (r.pumps connection).stage.holds = false ∨
      serial = none ∧ (r.pumps connection).stage.holds = true)
    (settled : Settled { r with serial } connection r') : Sound r' := by
  have away : serial ≠ some (.pump connection) := by
    rcases lets with ⟨rfl, free⟩ | ⟨rfl, _⟩
    · exact sound.away free
    · nofun
  have others : ∀ holder, holder ≠ .pump connection →
      (serial = some holder ↔ r.serial = some holder) := by
    intro holder other
    rcases lets with ⟨rfl, _⟩ | ⟨rfl, holds⟩
    · rfl
    · rw [(sound.pumps connection).mpr holds]
      exact ⟨nofun, fun same => absurd (Option.some.inj same).symm other⟩
  refine sound.of_aside ⟨settled.writer, settled.uncertain, settled.next, settled.items⟩
    (by rw [settled.serial, others .writer nofun]) (fun _ free => settled.serial.trans ?_)
    (fun i => ?_) (fun i => ?_)
  · exact lets.elim (fun kept => kept.1.trans free) fun gone => gone.1
  · rw [settled.serial]
    rcases eq_or_ne i connection with rfl | other
    · rw [settled.free]
      exact ⟨fun holds => absurd holds away, nofun⟩
    · rw [settled.others i other, others _ fun same => other (Party.pump.inj same)]
      exact sound.pumps i
  · rcases eq_or_ne i connection with rfl | other
    · exact settled.greeted
    · rw [settled.others i other]
      exact sound.attached i

/-- What the pumps, the kernel and the child do: they leave the writer alone, and something is
granted only by the pump that holds the serial lock. -/
structure Outside (r r' : Renderer ι) (events : List (Event ι)) : Prop where
  aside : Aside r r'
  sound : Sound r'
  granted : events = [] ∨ (∃ i, r.serial = some (.pump i)) ∧ ∀ event ∈ events, event.grants = true
  leased : r'.registry.generation ≠ r.registry.generation → ∃ i, .leased i ∈ events

theorem aside_refl (r : Renderer ι) : Aside r r := ⟨rfl, rfl, rfl, [], (append_nil _).symm⟩

theorem Sound.unheld (sound : Sound r) (serial : r.serial = none ∨ r.serial = some .writer)
    (i : ι) : (r.pumps i).stage.holds = false := by
  rw [← Bool.not_eq_true, ← sound.pumps i]
  rcases serial with free | held
  · rw [free]
    nofun
  · rw [held]
    nofun

theorem Sound.certain_of_writer (sound : Sound r) (running : r.writer ≠ .ended) :
    r.uncertain = false := by
  cases isCertain : r.uncertain with
  | false => rfl
  | true => exact absurd (sound.certain isCertain).1 running

theorem Outside.still (sound : Sound r) : Outside r r [] :=
  ⟨aside_refl r, sound, .inl rfl, (absurd rfl)⟩

theorem Outside.of_settled (sound : Sound r) (free : (r.pumps connection).stage.holds = false)
    (settled : Settled r connection r')
    (same : r'.registry.generation = r.registry.generation) : Outside r r' [] :=
  ⟨settled.toAside, sound.settled (.inl ⟨rfl, free⟩) settled, .inl rfl, (absurd same)⟩

theorem Outside.of_unlocked (sound : Sound r) (holds : (r.pumps connection).stage.holds = true)
    (settled : Settled { r with serial := none } connection r')
    (granted : ∀ event ∈ events, event.grants = true)
    (leased : r'.registry.generation ≠ r.registry.generation → ∃ i, .leased i ∈ events) :
    Outside r r' events :=
  ⟨⟨settled.writer, settled.uncertain, settled.next, settled.items⟩,
    sound.settled (.inr ⟨rfl, holds⟩) settled,
    .inr ⟨⟨connection, (sound.pumps connection).mpr holds⟩, granted⟩, leased⟩

theorem grants_leases (connection : ι) (before after : OwnerRegistry) :
    ∀ event ∈ leases connection before after, event.grants = true := by
  unfold leases
  split
  · nofun
  · intro event member
    rw [mem_singleton.mp member]
    rfl

theorem mem_leases {before after : OwnerRegistry} (changed : after.generation ≠ before.generation) :
    .leased connection ∈ leases connection before after := by
  rw [leases, if_neg changed]
  exact mem_cons_self

theorem handle_greets (msg : ClientMsg) (buffer : ByteRing) (ctx : SessionContext) :
    (r.handle connection msg buffer ctx).effects.any refusesHandshake = false →
      (r.handle connection msg buffer ctx).state.attached = true := by
  unfold handle onClientFrame
  split
  · next attached =>
    intro _
    rw [processFrame_served.attached_eq, demote_attached, attached]
  · have greeted :=
      (r.pumps connection).session.processHello_greeted msg buffer r.registry ctx
    generalize (r.pumps connection).session.processHello msg buffer r.registry ctx = handled
      at greeted
    cases greeted with
    | refused => exact nofun
    | observing | owning => exact fun _ => rfl

/-- A frame that is no input puts no input into the queue. -/
theorem handle_quiet (attached : (r.pumps connection).session.attached = true) (msg : ClientMsg)
    (noInput : ∀ data inputSeq, msg ≠ .input data inputSeq) (buffer : ByteRing)
    (ctx : SessionContext) (data : Bytes) (inputSeq : Nat) :
    .writeToPty data inputSeq ∉ (r.handle connection msg buffer ctx).effects := by
  rw [handle, onClientFrame, if_pos attached]
  exact processFrame_quiet noInput

variable [DecidableEq ι]

theorem settled_stored (pump : Pump) (aside : Aside r stored) (serial : stored.serial = r.serial)
    (pumps : stored.pumps = (r.setPump connection pump).pumps) (free : pump.stage.holds = false)
    (greeted : pump.stage.attached = true → pump.session.attached = true) :
    Settled r connection stored where
  toAside := aside
  serial := serial
  others i other := by rw [pumps]; exact if_neg other
  free := by simpa [pumps, setPump] using free
  greeted := by simpa [pumps, setPump] using greeted

theorem settled_setPump (pump : Pump) (free : pump.stage.holds = false)
    (greeted : pump.stage.attached = true → pump.session.attached = true) :
    Settled r connection (r.setPump connection pump) :=
  settled_stored pump ⟨rfl, rfl, rfl, [], (append_nil _).symm⟩ rfl rfl free greeted

/-- Whatever was stored before, a connection that departs holds nothing. -/
theorem settled_depart (aside : Aside r stored) (serial : stored.serial = r.serial)
    (others : ∀ i, i ≠ connection → stored.pumps i = r.pumps i)
    (free : r.serial ≠ some (.pump connection)) :
    Settled r connection (stored.depart connection) where
  writer := aside.writer
  uncertain := aside.uncertain
  next := aside.next
  items := aside.items
  serial := (if_neg (serial ▸ free)).trans serial
  others i other := (if_neg other).trans (others i other)
  free := by simp [depart, setPump, PumpStage.holds]
  greeted := by simp [depart, setPump, PumpStage.attached]

/-- A connection that departs lets go of the lock if it held it. -/
theorem depart_unlocked (r : Renderer ι) (holds : r.serial = some (.pump connection)) :
    r.depart connection = { r with serial := none }.depart connection := by
  simp [depart, holds, setPump]

theorem depart_generation (r : Renderer ι) (connection : ι) :
    (r.depart connection).registry.generation = r.registry.generation :=
  releaseOwner_generation

/-- The session and the registry are stored as they were handled. -/
abbrev store (r : Renderer ι) (connection : ι) (handled : Handled) : Renderer ι :=
  { r.setPump connection { stage := .serving, session := handled.state } with
    registry := handled.registry }

/-- What a frame leaves behind: it is stored with what it queued, or the connection departs. -/
inductive Left (r : Renderer ι) (connection : ι) (handled : Handled) : Bool → Renderer ι → Prop
  | stored (more : List (SupervisorControl ι)) : Left r connection handled false
      { r.store connection handled with items := r.items ++ more }
  | departed (more : List (SupervisorControl ι)) : Left r connection handled true
      ({ r.store connection handled with items := r.items ++ more }.depart connection)

theorem settle_left (r : Renderer ι) (connection : ι) (shape : WriteShape)
    (focusEventTracking : Bool) (handled : Handled) :
    ∃ closes, Left r connection handled closes
      (r.settle connection shape focusEventTracking handled) := by
  unfold settle
  obtain ⟨more, stored, _⟩ := queued_enact (.connection handled.state.inputPermission connection)
    shape focusEventTracking handled.effects (r.store connection handled)
  simp only [stored]
  split
  · exact ⟨true, .departed more⟩
  · exact ⟨false, .stored more⟩

theorem settleHandshake_left (r : Renderer ι) (connection : ι) (handled : Handled) :
    Left r connection handled (handled.effects.any refusesHandshake)
      (r.settleHandshake connection handled) := by
  unfold settleHandshake
  obtain ⟨more, stored, _⟩ := queued_enactHandshake handled.effects (r.store connection handled)
  simp only [stored]
  cases handled.effects.any refusesHandshake with
  | true => exact .departed more
  | false => exact .stored more

theorem Left.generation (left : Left r connection handled closes r') :
    r'.registry.generation = handled.registry.generation := by
  cases left with
  | stored => rfl
  | departed => exact depart_generation _ connection

/-- A connection that stays is attached. -/
theorem Left.settled (left : Left r connection handled closes r')
    (free : r.serial ≠ some (.pump connection))
    (attached : closes = false → handled.state.attached = true) : Settled r connection r' := by
  cases left with
  | stored more =>
    exact settled_stored _ ⟨rfl, rfl, rfl, more, rfl⟩ rfl rfl rfl fun _ => attached rfl
  | departed more =>
    exact settled_depart ⟨rfl, rfl, rfl, more, rfl⟩ rfl (fun i other => if_neg other) free

/-- Under the lock, what is granted comes with the lease it gives. -/
theorem Outside.of_left (sound : Sound r) (holds : (r.pumps connection).stage.holds = true)
    (left : Left { r with serial := none } connection handled closes r')
    (attached : closes = false → handled.state.attached = true) (grants : event.grants = true) :
    Outside r r' (event :: leases connection r.registry handled.registry) := by
  refine .of_unlocked sound holds (left.settled (by simp) attached) ?_ ?_
  · exact forall_mem_cons.mpr ⟨grants, grants_leases _ _ _⟩
  · rw [left.generation]
    exact fun changed => ⟨connection, mem_cons_of_mem _ (mem_leases changed)⟩

theorem Outside.depart (sound : Sound r) (connection : ι) : Outside r (r.depart connection) [] := by
  cases holds : (r.pumps connection).stage.holds with
  | true =>
    rw [depart_unlocked r ((sound.pumps connection).mpr holds)]
    exact .of_unlocked sound holds (settled_depart (aside_refl _) rfl (fun _ _ => rfl) (by simp))
      (by simp)
      (absurd (depart_generation _ connection))
  | false =>
    exact .of_settled sound holds
      (settled_depart (aside_refl r) rfl (fun _ _ => rfl) (sound.away holds))
      (depart_generation r connection)

/-- A pump takes the free lock of a certain barrier. -/
theorem Outside.take (sound : Sound r) (free : r.serial = none) (certain : r.uncertain = false)
    {stage : PumpStage} (holds : stage.holds = true)
    (attached : stage.attached = true → (r.pumps connection).session.attached = true) :
    Outside r { r.setStage connection stage with serial := some (.pump connection) } [] where
  aside := ⟨rfl, rfl, rfl, [], (append_nil _).symm⟩
  granted := .inl rfl
  leased changed := absurd rfl changed
  sound := by
    refine sound.of_aside ⟨rfl, rfl, rfl, [], (append_nil _).symm⟩ ?_ (fun uncertain => ?_)
      (fun i => ?_) (fun i => ?_)
    · rw [free]
      exact ⟨nofun, nofun⟩
    · cases certain.symm.trans uncertain
    · rcases eq_or_ne i connection with rfl | other
      · simp [setStage, setPump, holds]
      · simp [setStage, setPump, other, sound.unheld (.inl free) i, other.symm]
    · rcases eq_or_ne i connection with rfl | other
      · simpa [setStage, setPump] using attached
      · simpa [setStage, setPump, other] using sound.attached i

theorem Outside.pumpLocks (sound : Sound r) (free : r.serial = none) (connection : ι) :
    Outside r (r.pumpLocks connection) [] := by
  unfold Renderer.pumpLocks
  split
  · split
    · exact .depart sound connection
    · next certain => exact .take sound free (Bool.eq_false_iff.mpr certain) rfl nofun
  · next isClaiming =>
    have attached := sound.attached connection (by rw [isClaiming]; rfl)
    split
    · exact .of_settled sound (sound.unheld (.inl free) connection)
        (settled_setPump _ rfl fun _ => attached) rfl
    · next certain =>
      exact .take sound free (Bool.eq_false_iff.mpr certain) rfl fun _ => attached
  · exact .still sound

theorem Outside.pumpScope (sound : Sound r) (scopes : ι → ClientInputScope) (connection : ι)
    (answer : Bool) (buffer : ByteRing) (ctx : SessionContext) :
    Outside r (r.pumpScope scopes connection answer buffer ctx).1
      (r.pumpScope scopes connection answer buffer ctx).2 := by
  unfold Renderer.pumpScope
  split
  · next first isGreeting =>
    have holds : (r.pumps connection).stage.holds = true := by rw [isGreeting]; rfl
    split
    · exact .of_left sound holds (settleHandshake_left _ connection _)
        (handle_greets first buffer ctx) rfl
    · exact .depart sound connection
  · next isClaiming =>
    have holds : (r.pumps connection).stage.holds = true := by rw [isClaiming]; rfl
    have attached := sound.attached connection (by rw [isClaiming]; rfl)
    split
    · obtain ⟨_, left⟩ := { r with serial := none }.settle_left connection .verbatim false
        (r.handle connection .ownerClaim buffer ctx)
      exact .of_left sound holds left (fun _ => onClientFrame_stays_attached attached) rfl
    · exact .of_unlocked sound holds (settled_setPump ⟨.serving, _⟩ rfl fun _ => attached)
        (fun _ absent => nomatch absent) (absurd rfl)
  · exact .still sound

/-- A frame that is no claim is handled without the lock, and gives no lease. -/
theorem Outside.frame (sound : Sound r) (serving : (r.pumps connection).stage = .serving)
    (msg : ClientMsg) (shape : WriteShape) (focusEventTracking : Bool) (buffer : ByteRing)
    (ctx : SessionContext) :
    Outside r (r.frame connection msg shape focusEventTracking buffer ctx).1
      (r.frame connection msg shape focusEventTracking buffer ctx).2 := by
  have unheld : (r.pumps connection).stage.holds = false := by rw [serving]; rfl
  have attached := sound.attached connection (by rw [serving]; rfl)
  have served : msg ≠ .ownerClaim →
      Outside r (r.settle connection shape focusEventTracking (r.handle connection msg buffer ctx))
        (leases connection r.registry (r.handle connection msg buffer ctx).registry) := by
    intro noClaim
    have same : (r.handle connection msg buffer ctx).registry.generation = r.registry.generation :=
      onClientFrame_generation attached noClaim
    rw [leases, if_pos same]
    obtain ⟨_, left⟩ := r.settle_left connection shape focusEventTracking
      (r.handle connection msg buffer ctx)
    exact .of_settled sound unheld (left.settled (sound.away unheld) fun _ =>
      onClientFrame_stays_attached attached) (left.generation.trans same)
  unfold Renderer.frame
  split
  · simp only
    split
    · exact .still sound
    · exact .of_settled sound unheld (settled_setPump _ rfl fun _ => attached) rfl
  · split
    · exact .still sound
    · exact served nofun
  · next noClaim _ => exact served noClaim

/-! ## What the pumps put into the queue -/

theorem settle_items (r : Renderer ι) (connection : ι) (shape : WriteShape)
    (focusEventTracking : Bool) (handled : Handled) :
    (r.settle connection shape focusEventTracking handled).items =
      (enact (.connection handled.state.inputPermission connection) shape focusEventTracking
        handled.effects (r.store connection handled)).1.items := by
  unfold settle
  simp only
  split <;> rfl

theorem puts_settle {handled : Handled}
    (quiet : ∀ data inputSeq, .writeToPty data inputSeq ∉ handled.effects) :
    Puts act r (r.settle connection shape focusEventTracking handled) := by
  obtain ⟨more, stored, unnumbered⟩ := queued_enact
    (.connection handled.state.inputPermission connection) shape focusEventTracking handled.effects
    (r.store connection handled)
  exact puts_quiet ((settle_items ..).trans (by rw [stored]; rfl)) (unnumbered quiet)

theorem puts_settleHandshake (handled : Handled) :
    Puts act r (r.settleHandshake connection handled) := by
  unfold settleHandshake
  obtain ⟨more, stored, unnumbered⟩ := queued_enactHandshake handled.effects
    (r.store connection handled)
  refine puts_quiet ?_ (unnumbered trivial)
  simp only [stored]
  split <;> rfl

/-- An input that is accepted is one write. -/
theorem puts_input (attached : (r.pumps connection).session.attached = true) (data : Bytes)
    (inputSeq : Nat) (shape : WriteShape) (focusEventTracking : Bool) (buffer : ByteRing)
    (ctx : SessionContext) :
    Puts (.frame connection (.input data inputSeq) shape focusEventTracking buffer ctx) r
      (r.settle connection shape focusEventTracking
        (r.handle connection (.input data inputSeq) buffer ctx)) := by
  have settled := r.settle_items connection shape focusEventTracking
    (r.handle connection (.input data inputSeq) buffer ctx)
  revert settled
  rw [handle, onClientFrame, if_pos attached, processFrame]
  split
  · unfold enact enact enqueue
    intro settled
    split at settled
    · exact puts_same settled
    · refine ⟨_, settled, fun write member _ => ?_⟩
      rw [mem_singleton] at member
      cases member
      exact ⟨rfl, .client _⟩
  · exact fun _ => puts_settle (by simp [notOwnerError])

theorem puts_frame (attached : (r.pumps connection).session.attached = true) (msg : ClientMsg)
    (shape : WriteShape) (focusEventTracking : Bool) (buffer : ByteRing) (ctx : SessionContext) :
    Puts (.frame connection msg shape focusEventTracking buffer ctx) r
      (r.frame connection msg shape focusEventTracking buffer ctx).1 := by
  unfold frame
  split
  · simp only
    split <;> exact puts_same rfl
  · split
    · exact puts_same rfl
    · exact puts_input attached ..
  · next noInput => exact puts_settle (handle_quiet attached msg noInput buffer ctx)

theorem puts_pumpLocks : Puts act r (r.pumpLocks connection) := by
  unfold Renderer.pumpLocks
  repeat' split
  all_goals exact puts_same rfl

theorem puts_pumpScope (sound : Sound r) (scopes : ι → ClientInputScope) (connection : ι)
    (answer : Bool) (buffer : ByteRing) (ctx : SessionContext) :
    Puts act r (r.pumpScope scopes connection answer buffer ctx).1 := by
  unfold Renderer.pumpScope
  split
  · split
    · exact puts_settleHandshake _
    · exact puts_same rfl
  · next isClaiming =>
    have attached := sound.attached connection (by rw [isClaiming]; rfl)
    simp only
    split
    · exact puts_settle (handle_quiet attached .ownerClaim nofun buffer ctx)
    · exact puts_same rfl
  · exact puts_same rfl

end Pumps

/-! ## What one act can do -/

section Steps

variable (link : Link) (scopes : ι → ClientInputScope)

/-- The moment of a connection's admission: its scope was asked under the serial lock and allowed
it, its lease is current, and the barrier is certain. -/
structure AdmittedAt (r : Renderer ι) (act : Act ι) (id : Nat) (write : PtyWrite ι) : Prop where
  writer : r.writer = .scoping id write
  certain : r.uncertain = false
  allowed : ∃ permission sender answer, write.authority = .connection permission sender ∧
    act = .writerScope answer ∧ (scopes sender).allowed answer = true ∧
    (permission = .kernel ∨ ∃ lease, permission = .owner lease ∧ r.registry.isCurrent lease = true)

/-- The write may be started: the writer is past its fence, or the kernel wrote it. -/
inductive Ready (r : Renderer ι) (id : Nat) (write : PtyWrite ι) : Renderer ι → Prop
  | fenced : r.writer = .fencing id write → Ready r id write r
  | trusted : r.writer = .idle → r.items[id]? = some (.write write) → id = r.next →
      write.guarded = false → Ready r id write { r with next := r.next + 1 }

/-- What is seen of a part before it is acknowledged, and the bytes that were given with it. -/
inductive Given (job : Job ι) : Bytes → List (Event ι) → Prop
  | nothing : Given job [] []
  | offered : Given job [] [.offered job.id job.index job.seq job.left]
  | wrote (bytes : Bytes) : Given job bytes [.wrote job.id job.index job.seq bytes]
  | refused (reply : ControlReply) : Given job [] [.replied job.id job.index job.seq reply]

inductive Step (r : Renderer ι) (act : Act ι) : Renderer ι → List (Event ι) → Prop
  | outside : Outside r r' events → Puts act r r' → Step r act r' events
  /-- The writer moves where no lock is held. -/
  | moved (next : Nat) (writer : Writer ι) : r.writer.holds = false →
      (∀ job, r.writer ≠ .writing job) → writer.holds = false → (∀ job, writer ≠ .writing job) →
      r.next ≤ next → next ≤ r.items.length →
      ({ r with next }).WriterPlaced writer →
      (r.writer = .ended → writer = .ended) →
      (∀ id write, writer = .granting id write → id = r.next) →
      Step r act { r with next, writer } []
  | locked (id : Nat) (write : PtyWrite ι) : r.writer = .granting id write → r.serial = none →
      r.uncertain = false →
      Step r act { r with serial := some .writer, writer := .scoping id write } []
  /-- The writer gives up before the write was started. -/
  | released (id : Nat) (write : PtyWrite ι) (writer : Writer ι) :
      r.writer = .scoping id write ∨ r.writer = .fencing id write ∧ writer = .ended →
      writer = .idle ∨ writer = .ended → Step r act { r with serial := none, writer } []
  | admitted (id : Nat) (write : PtyWrite ι) : AdmittedAt scopes r act id write →
      Step r act { r with writer := .fencing id write } [.admitted id]
  | begun (id : Nat) (write : PtyWrite ι) (ready : Renderer ι) (part : Bytes) (rest : List Bytes) :
      Ready r id write ready → writeParts write.data write.shape = part :: rest →
      Step r act
        { ready with
          physicalSequence := r.physicalSequence + (rest.length + 1)
          writer := .writing
            { id, write, first := r.physicalSequence, index := 0, left := part, handed := false,
              asked := false, rest } }
        [.started id r.physicalSequence]
  | exhausted (id : Nat) (write : PtyWrite ι) (ready : Renderer ι) : Ready r id write ready →
      Step r act { ready.unlock write with writer := .ended } []
  | gave (job : Job ι) (given : List (Event ι)) (bytes left : Bytes) (handed asked : Bool) :
      r.writer = .writing job → Given job bytes given → bytes ++ left = job.left →
      (handed = true → left = []) →
      Step r act { r with writer := .writing { job with left, handed, asked } } given
  | advanced (job : Job ι) (given : List (Event ι)) (part : Bytes) (rest : List Bytes) :
      r.writer = .writing job → Given job job.left given → job.rest = part :: rest →
      Step r act
        { r with
          writer := .writing
            { job with
              index := job.index + 1, left := part, handed := false, asked := false, rest } }
        (given ++ [.acked job.id job.first job.index])
  | completed (job : Job ι) (given : List (Event ι)) : r.writer = .writing job →
      Given job job.left given → job.rest = [] →
      Step r act { r.unlock job.write with writer := .idle }
        (given ++ .acked job.id job.first job.index :: .acknowledged job.id ::
          answer job.id job.write)
  | abandoned (job : Job ι) (given : List (Event ι)) : r.writer = .writing job →
      Given job [] given → Step r act (r.abandon job.write) given

variable {link scopes} {r : Renderer ι}

theorem step_begin {id : Nat} (isReady : Ready r id write ready) :
    Step scopes r act (ready.begin id write).1 (ready.begin id write).2 := by
  have same : ready.physicalSequence = r.physicalSequence := by cases isReady <;> rfl
  unfold begin
  simp only
  split
  · obtain ⟨part, rest, parts⟩ := exists_cons_of_ne_nil (writeParts_ne_nil write.data write.shape)
    rw [parts, same]
    exact .begun id write ready part rest isReady parts
  · exact .exhausted id write ready isReady

/-- The reply with the part's own number. -/
theorem step_acked {given : List (Event ι)} (writes : r.writer = .writing job)
    (isGiven : Given job job.left given) :
    Step scopes r act (r.onReply job (.writeAck job.seq)).1
      (given ++ (r.onReply job (.writeAck job.seq)).2) := by
  unfold onReply proceed
  rw [if_pos rfl]
  cases isRest : job.rest with
  | nil => exact .completed job given writes isGiven isRest
  | cons part rest => exact .advanced job given part rest writes isGiven isRest

theorem step_onReply (writes : r.writer = .writing job) (whole : job.left = [])
    (reply : ControlReply) :
    Step scopes r act (r.onReply job reply).1 (r.onReply job reply).2 := by
  by_cases own : reply = .writeAck job.seq
  · rw [own]
    exact step_acked writes (by rw [whole]; exact .nothing)
  · unfold onReply
    rw [if_neg own]
    exact .abandoned job _ writes (.refused reply)

theorem step_request (writes : r.writer = .writing job)
    (whole : job.handed = true → job.left = []) :
    Step scopes r act (r.request job).1 (r.request job).2 := by
  unfold request
  split
  · next isWhole => exact step_acked writes (by rw [isWhole]; exact .nothing)
  · exact .gave job _ [] job.left job.handed true writes .offered rfl whole

theorem step_interact (writes : r.writer = .writing job) (whole : job.handed = true → job.left = [])
    (reply : ExecutionReply) :
    Step scopes r act (r.interact job reply).1 (r.interact job reply).2 := by
  cases reply with
  | other => exact .abandoned job [] writes .nothing
  | stdinProgress accepted =>
    simp only [interact]
    split
    · exact .abandoned job [] writes .nothing
    split
    · next all =>
      rw [← all, take_length]
      exact step_acked writes (.wrote job.left)
    · exact .gave job _ _ _ job.handed false writes (.wrote _) (take_append_drop accepted job.left)
        fun handed => by rw [whole handed, drop_nil]

theorem step_hand (writes : r.writer = .writing job) (count : Nat) :
    Step scopes r act (r.hand job count).1 (r.hand job count).2 :=
  .gave job _ _ _ _ job.asked writes (.wrote _) (take_append_drop count job.left) isEmpty_iff.mp

section

variable (sound : Sound r)

include sound

theorem Step.still : Step scopes r act r [] := .outside (.still sound) (puts_same rfl)

/-- The writer turns to what asks for no lock, and takes nothing from the queue. -/
theorem step_turn {before after : Writer ι} (isBefore : r.writer = before)
    (unheld : before.holds = false) (unstarted : ∀ job, before ≠ .writing job)
    (turns : after = .ended ∨ before ≠ .ended ∧ (after = .idle ∨ ∃ n, after = .controlling n)) :
    Step scopes r act { r with writer := after } [] := by
  subst before
  rcases turns with rfl | ⟨running, rfl | ⟨n, rfl⟩⟩
  · exact .moved r.next .ended unheld unstarted rfl nofun (Nat.le_refl _) sound.bound trivial
      (fun _ => rfl) nofun
  · exact .moved r.next .idle unheld unstarted rfl nofun (Nat.le_refl _) sound.bound trivial
      (absurd · running) nofun
  · exact .moved r.next (.controlling n) unheld unstarted rfl nofun (Nat.le_refl _) sound.bound
      trivial (absurd · running) nofun

theorem step_receive (isIdle : r.writer = .idle) :
    Step scopes r act (r.receive link).1 (r.receive link).2 := by
  have unheld : r.writer.holds = false := by rw [isIdle]; rfl
  have unstarted : ∀ job, r.writer ≠ .writing job := by rw [isIdle]; nofun
  have unended : r.writer ≠ .ended := by rw [isIdle]; nofun
  unfold receive
  cases isItem : r.items[r.next]? with
  | none =>
    simp only
    split
    · exact step_turn sound isIdle rfl nofun (.inl rfl)
    · exact .still sound
  | some control =>
    have within : r.next + 1 ≤ r.items.length := (List.getElem?_eq_some_iff.mp isItem).1
    have next : ∀ writer : Writer ι, writer.holds = false → (∀ job, writer ≠ .writing job) →
        ({ r with next := r.next + 1 }).WriterPlaced writer →
        (∀ id write, writer = .granting id write → id = r.next) →
        Step scopes r act { r with next := r.next + 1, writer } [] :=
      fun writer free starts placed fresh => .moved _ writer unheld unstarted free starts
        (Nat.le_succ _) within placed (fun ended => absurd ended unended) fresh
    have idle := next .idle rfl nofun trivial nofun
    rw [← isIdle] at idle
    cases control with
    | write write =>
      simp only
      split
      · exact idle
      cases authority : write.authority with
      | trustedKernel =>
        have unguarded : write.guarded = false := by rw [PtyWrite.guarded, authority]
        exact step_begin (.trusted isIdle isItem rfl unguarded)
      | connection =>
        refine next (.granting r.next write) rfl nofun ⟨⟨isItem, rfl⟩, ?_⟩ ?_
        · rw [PtyWrite.guarded, authority]
        · rintro _ _ ⟨⟩
          rfl
    | resize =>
      simp only
      split
      · exact idle
      · exact next (.controlling 1) rfl nofun trivial nofun
    | stop => exact next (.controlling _) rfl nofun trivial nofun

theorem step_writerScope {id : Nat} (scoping : r.writer = .scoping id write) (answer : Bool) :
    Step scopes r (.writerScope answer) (r.writerScope scopes answer id write).1
      (r.writerScope scopes answer id write).2 := by
  unfold writerScope
  split
  · exact .still sound
  · next permission sender authority =>
    split
    · next passes =>
      rw [Bool.and_eq_true] at passes
      have certain := sound.certain_of_writer (by rw [scoping]; nofun)
      refine .admitted id write ⟨scoping, certain, permission, sender, answer, authority, rfl,
        passes.1, ?_⟩
      cases permission with
      | owner lease => exact .inr ⟨lease, rfl, passes.2⟩
      | kernel => exact .inl rfl
      | denied => cases passes.2
    · exact .released id write .idle (.inl scoping) (.inl rfl)

theorem step_cancelWriter : Step scopes r act r.cancelWriter [] := by
  unfold cancelWriter
  cases isWriter : r.writer with
  | writing job => exact .abandoned job [] isWriter .nothing
  | scoping id write => exact .released id write .ended (.inl isWriter) (.inr rfl)
  | fencing id write => exact .released id write .ended (.inr ⟨isWriter, rfl⟩) (.inr rfl)
  | idle | granting | controlling | ended =>
    exact step_turn sound isWriter rfl nofun (.inl rfl)

variable (link scopes) in
/-- **Every act is a step.** -/
theorem react_step [DecidableEq ι] (act : Act ι) :
    Step scopes r act (react link scopes r act).1 (react link scopes r act).2 := by
  have still : Step scopes r act r [] := .still sound
  have beside : ∀ {r' : Renderer ι}, r'.pumps = r.pumps → r'.serial = r.serial →
      r'.registry = r.registry → Aside r r' → Puts act r r' → Step scopes r act r' [] := by
    intro r' pumps serial registry aside puts
    refine .outside ⟨aside, ?_, .inl rfl, (absurd (by rw [registry]))⟩ puts
    exact sound.of_aside aside (by rw [serial]) (fun _ free => serial.trans free)
      (by rw [pumps, serial]; exact sound.pumps) (by rw [pumps]; exact sound.attached)
  cases act with simp only [react]
  | firstFrame _ msg =>
    split
    · next isConnected =>
      exact .outside (.of_settled sound (by rw [isConnected]; rfl)
        (settled_setPump ⟨.greeting msg, _⟩ rfl nofun) rfl) (puts_same rfl)
    · exact still
  | frame =>
    split
    · next serving =>
      exact .outside (.frame sound serving ..)
        (puts_frame (sound.attached _ (by rw [serving]; rfl)) ..)
    · exact still
  | claimIfUnowned connection =>
    split
    · next serving =>
      split
      · exact still
      · exact .outside (.of_settled sound (by rw [serving]; rfl)
          (settled_setPump ⟨.claiming true, _⟩ rfl fun _ =>
            sound.attached connection (by rw [serving]; rfl)) rfl) (puts_same rfl)
    · exact still
  | pumpLocks connection =>
    split
    · next free => exact .outside (.pumpLocks sound free connection) puts_pumpLocks
    · exact still
  | pumpScope => exact .outside (.pumpScope sound ..) (puts_pumpScope sound ..)
  | depart connection => exact .outside (.depart sound connection) (puts_same rfl)
  | kernelWrite data inputSeq ack shape =>
    unfold enqueue
    split
    · exact still
    · refine beside rfl rfl rfl ⟨rfl, rfl, rfl, _, rfl⟩ ⟨_, rfl, fun write member _ => ?_⟩
      rw [mem_singleton] at member
      cases member
      exact ⟨rfl, .kernel⟩
  | spawned => exact beside rfl rfl rfl ⟨rfl, rfl, rfl, [], (append_nil _).symm⟩ (puts_same rfl)
  | watch =>
    split
    · exact still
    · exact beside rfl rfl rfl ⟨rfl, rfl, rfl, [], (append_nil _).symm⟩ (puts_same rfl)
  | childExited =>
    split
    · exact beside rfl rfl rfl ⟨rfl, rfl, rfl, [], (append_nil _).symm⟩ (puts_same rfl)
    · exact still
  | receive =>
    split
    · next isIdle => exact step_receive sound isIdle
    · exact still
  | writerLocks =>
    split
    · next id write granting =>
      split
      · next free =>
        split
        · exact step_turn sound granting rfl nofun (.inr ⟨nofun, .inl rfl⟩)
        · next certain =>
          rw [not_or, Bool.not_eq_true] at certain
          exact .locked id write granting free certain.1
      · exact still
    · exact still
  | writerScope answer =>
    split
    · next scoping => exact step_writerScope sound scoping answer
    · exact still
  | writerFence =>
    split
    · next fencing =>
      split
      · exact still
      · exact step_begin (.fenced fencing)
    · exact still
  | hand count =>
    split
    · next writes =>
      split
      · exact still
      · exact step_hand writes count
    · exact still
  | reply reply =>
    split
    · next writes =>
      split
      · next handed =>
        exact step_onReply writes ((sound.placedAt writes).2.2 handed) reply
      · exact still
    · exact still
  | request =>
    split
    · next writes =>
      split
      · exact still
      · exact step_request writes (sound.placedAt writes).2.2
    · exact still
  | interact reply =>
    split
    · next writes =>
      split
      · exact step_interact writes (sound.placedAt writes).2.2 reply
      · exact still
    · exact still
  | controlReply =>
    split
    · next controlling =>
      exact step_turn sound controlling rfl nofun (.inr ⟨nofun, .inr ⟨_, rfl⟩⟩)
    · next controlling => exact step_turn sound controlling rfl nofun (.inr ⟨nofun, .inl rfl⟩)
    · exact still
  | breakOff =>
    split
    · next job writes => exact .abandoned job [] writes .nothing
    · next controlling => exact step_turn sound controlling rfl nofun (.inl rfl)
    · exact still
  | cancelWriter => exact step_cancelWriter sound

/-! ## Soundness -/

/-- Only the writer's state, its lock and its place change. -/
theorem Sound.of_writer (pumps : r'.pumps = r.pumps) (serial : r'.serial = r.serial ∨
      (r.serial = none ∨ r.serial = some .writer) ∧ (r'.serial = none ∨ r'.serial = some .writer))
    (writer : r'.serial = some .writer ↔ r'.writer.holds = true)
    (certain : r'.uncertain = true → r'.writer = .ended ∧ r'.serial = none)
    (placed : r'.WriterPlaced r'.writer) (bound : r'.next ≤ r'.items.length) : Sound r' where
  pumps i := by
    rw [pumps]
    rcases serial with same | ⟨before, after⟩
    · rw [same]
      exact sound.pumps i
    · rw [sound.unheld before i]
      rcases after with free | held
      · rw [free]
        exact ⟨nofun, nofun⟩
      · rw [held]
        exact ⟨nofun, nofun⟩
  writer := writer
  certain := certain
  attached := by
    rw [pumps]
    exact sound.attached
  placed := placed
  bound := bound

/-- As long as the writer runs, the barrier is certain. -/
theorem Sound.of_running (running : r.writer ≠ .ended) (uncertain : r'.uncertain = r.uncertain)
    (pumps : r'.pumps = r.pumps) (serial : r'.serial = r.serial ∨
      (r.serial = none ∨ r.serial = some .writer) ∧ (r'.serial = none ∨ r'.serial = some .writer))
    (writer : r'.serial = some .writer ↔ r'.writer.holds = true)
    (placed : r'.WriterPlaced r'.writer) (bound : r'.next ≤ r'.items.length) : Sound r' := by
  refine sound.of_writer pumps serial writer (fun isUncertain => ?_) placed bound
  rw [uncertain, sound.certain_of_writer running] at isUncertain
  cases isUncertain

/-- A write that holds the lock lets it go; one of the kernel never had it. -/
theorem unlock_serial (holds : r.writer.holds = write.guarded) :
    (r.unlock write).serial ≠ some .writer ∧ ((r.unlock write).serial = r.serial ∨
      r.serial = some .writer ∧ (r.unlock write).serial = none) := by
  unfold unlock
  split
  · next guarded => exact ⟨nofun, .inr ⟨sound.writer.mpr (holds.trans guarded), rfl⟩⟩
  · next unguarded =>
    refine ⟨fun isWriter => unguarded ?_, .inl rfl⟩
    rw [← holds, sound.writer.mp isWriter]

end

theorem unlock_eq (r : Renderer ι) (write : PtyWrite ι) :
    ∃ serial, r.unlock write = { r with serial } := by
  unfold unlock
  split
  · exact ⟨none, rfl⟩
  · exact ⟨r.serial, rfl⟩

/-- A write ends, and its guard with it. -/
theorem Sound.unlock {writer : Writer ι} {uncertain : Bool} (sound : Sound r)
    (holds : r.writer.holds = write.guarded) (free : writer.holds = false)
    (placed : r.WriterPlaced writer)
    (certain : uncertain = true → writer = .ended ∧ (r.unlock write).serial = none) :
    Sound { r.unlock write with writer, uncertain } := by
  obtain ⟨released, cases⟩ := unlock_serial sound holds
  obtain ⟨_, same⟩ := unlock_eq r write
  rw [same] at released cases certain ⊢
  refine sound.of_writer rfl ?_ ?_ certain (WriterPlaced.grow placed rfl ⟨[], ?_⟩) sound.bound
  · exact cases.imp_right fun ⟨held, gone⟩ => ⟨.inr held, .inl gone⟩
  · rw [free]
    exact ⟨fun isWriter => absurd isWriter released, nofun⟩
  · exact (append_nil _).symm

theorem Sound.writing (sound : Sound r) (writes : r.writer = .writing job) :
    r.WriterPlaced (.writing job) ∧ r.writer.holds = job.write.guarded ∧ r.uncertain = false := by
  refine ⟨sound.placedAt writes, by rw [writes]; rfl, sound.certain_of_writer ?_⟩
  rw [writes]
  nofun

/-- What a write that may be started is known by. -/
theorem Ready.spec {id : Nat} (sound : Sound r) (isReady : Ready r id write ready) :
    ready = { r with next := ready.next } ∧ r.writer.holds = write.guarded ∧
      r.writer ≠ .ended ∧ ready.Placed id write ∧ ready.next ≤ r.items.length ∧
      r.next ≤ ready.next := by
  cases isReady with
  | fenced fencing =>
    have placed := sound.placedAt fencing
    refine ⟨rfl, ?_, ?_, placed.1, sound.bound, Nat.le_refl _⟩
    · rw [fencing, placed.2]
      rfl
    · rw [fencing]
      nofun
  | trusted isIdle isItem isNext unguarded =>
    refine ⟨rfl, ?_, ?_, ⟨isItem, congrArg (· + 1) isNext⟩, ?_, Nat.le_succ _⟩
    · rw [isIdle, unguarded]
      rfl
    · rw [isIdle]
      nofun
    · rw [isNext] at isItem
      exact (List.getElem?_eq_some_iff.mp isItem).1

theorem Sound.step {r' : Renderer ι} {events : List (Event ι)} (sound : Sound r)
    (step : Step scopes r act r' events) : Sound r' := by
  cases step with
  | outside outside => exact outside.sound
  | moved _ _ unheld _ free _ _ bound placed ends =>
    refine sound.of_writer rfl (.inl rfl) ?_ ?_ ?_ bound
    · rw [sound.writer, unheld, free]
    · exact fun uncertain => ⟨ends (sound.certain uncertain).1, (sound.certain uncertain).2⟩
    · exact placed.grow rfl ⟨[], (append_nil _).symm⟩
  | locked _ _ granting free =>
    have placed := sound.placedAt granting
    exact sound.of_running (by rw [granting]; nofun) rfl rfl (.inr ⟨.inl free, .inr rfl⟩)
      ⟨fun _ => rfl, fun _ => rfl⟩ (WriterPlaced.grow placed rfl ⟨[], (append_nil _).symm⟩)
      sound.bound
  | released _ _ _ before after =>
    have holds : r.writer.holds = true := by
      rcases before with scoping | ⟨fencing, _⟩
      · rw [scoping]
        rfl
      · rw [fencing]
        rfl
    have running : r.writer ≠ .ended := fun ended => by
      rw [ended] at holds
      cases holds
    refine sound.of_running running rfl rfl (.inr ⟨.inr (sound.writer.mpr holds), .inl rfl⟩)
      ⟨nofun, ?_⟩ ?_ sound.bound
    · rcases after with rfl | rfl <;> exact nofun
    · rcases after with rfl | rfl <;> trivial
  | admitted _ _ admitted =>
    have placed := sound.placedAt admitted.writer
    refine sound.of_running (by rw [admitted.writer]; nofun) rfl rfl (.inl rfl) ?_ ?_ sound.bound
    · rw [sound.writer, admitted.writer]
      rfl
    · exact WriterPlaced.grow placed rfl ⟨[], (append_nil _).symm⟩
  | begun _ write _ _ rest isReady parts =>
    obtain ⟨isRest, holds, running, placed, bound, _⟩ := isReady.spec sound
    rw [isRest]
    refine sound.of_running running rfl rfl (.inl rfl) ?_ ?_ bound
    · rw [sound.writer, holds]
      rfl
    · rw [isRest] at placed
      refine ⟨⟨placed.item, placed.last⟩, ?_, nofun⟩
      change (writeParts write.data write.shape).length = 0 + 1 + rest.length
      rw [parts, length_cons]
      omega
  | exhausted _ write ready isReady =>
    obtain ⟨isRest, holds, running, placed, bound, _⟩ := isReady.spec sound
    have certain := sound.certain_of_writer running
    have readySound : Sound ready := by
      rw [isRest]
      refine sound.of_writer rfl (.inl rfl) sound.writer ?_ ?_ bound
      · exact sound.certain
      · cases isReady with
        | fenced => exact sound.placed
        | trusted isIdle =>
          change WriterPlaced _ r.writer
          rw [isIdle]
          trivial
    have sameWriter : ready.writer = r.writer := by rw [isRest]
    have same : ready.uncertain = false := by
      rw [isRest]
      exact certain
    have freed : Sound { ready.unlock write with writer := .ended, uncertain := false } :=
      readySound.unlock (by rw [sameWriter]; exact holds) rfl trivial nofun
    obtain ⟨_, unlocked⟩ := unlock_eq ready write
    rw [unlocked] at freed ⊢
    rw [← same] at freed
    exact freed
  | gave _ _ _ _ _ _ writes _ _ whole =>
    obtain ⟨placed, holds, _⟩ := sound.writing writes
    refine sound.of_running (by rw [writes]; nofun) rfl rfl (.inl rfl) ?_ ?_ sound.bound
    · rw [sound.writer, holds]
      rfl
    · exact ⟨⟨placed.1.item, placed.1.last⟩, placed.2.1, whole⟩
  | advanced job _ _ rest writes _ isRest =>
    obtain ⟨placed, holds, _⟩ := sound.writing writes
    refine sound.of_running (by rw [writes]; nofun) rfl rfl (.inl rfl) ?_ ?_ sound.bound
    · rw [sound.writer, holds]
      rfl
    · refine ⟨⟨placed.1.item, placed.1.last⟩, ?_, nofun⟩
      have count := placed.2.1
      rw [isRest, length_cons] at count
      change (writeParts job.write.data job.write.shape).length = job.index + 1 + 1 + rest.length
      omega
  | completed job _ writes =>
    obtain ⟨_, holds, certain⟩ := sound.writing writes
    have freed : Sound { r.unlock job.write with writer := .idle, uncertain := false } :=
      sound.unlock holds rfl trivial nofun
    obtain ⟨_, unlocked⟩ := unlock_eq r job.write
    rw [unlocked] at freed ⊢
    rw [← certain] at freed
    exact freed
  | abandoned _ _ writes =>
    obtain ⟨_, holds, certain⟩ := sound.writing writes
    refine sound.unlock holds rfl trivial fun uncertain => ⟨rfl, ?_⟩
    rw [certain, Bool.false_or] at uncertain
    rw [Renderer.unlock, if_pos uncertain]

end Steps

end Renderer

end Input

end NeigeCalm.Terminal
