import NeigeCalm.Terminal.Barrier
import Mathlib.Data.List.Induction
import Mathlib.Data.List.Nodup
import Mathlib.Data.List.Pairwise

/-!
# Input is written in order, under control, and never past an unknown outcome

What the steps of a renderer add up to.  `Ledger` relates the state to everything seen so far: which
items were written and how far.  `Begun` is the time from the start of a connection's write until
its acknowledgement; a write that is never acknowledged never leaves it.
-/

namespace NeigeCalm.Terminal.Input

open Library List Option Machine

variable {ι : Type}

/-! ## What is seen -/

namespace Event

/-- The item that bytes were written for, or may have been. -/
def writes : Event ι → Option Nat
  | .wrote id _ _ _ | .offered id _ _ _ => some id
  | _ => none

/-- The item whose input was acknowledged to its client. -/
def answers : Event ι → Option Nat
  | .inputAck id _ => some id
  | _ => none

/-- The item that was started or acknowledged. -/
def turns : Event ι → Option Nat
  | .started id _ | .acknowledged id | .inputAck id _ => some id
  | _ => none

def bytesFor (id : Nat) : Event ι → Bytes
  | .wrote other _ _ bytes => if other = id then bytes else []
  | _ => []

end Event

/-- The items in the order of their bytes. -/
def written (events : List (Event ι)) : List Nat := events.filterMap Event.writes

def answered (events : List (Event ι)) : List Nat := events.filterMap Event.answers

/-- All the bytes that were given for an item. -/
def bytesOf (id : Nat) (events : List (Event ι)) : Bytes := events.flatMap (Event.bytesFor id)

theorem written_append :
    written (first ++ second) = written first ++ written second := filterMap_append

theorem answered_append :
    answered (first ++ second) = answered first ++ answered second := filterMap_append

theorem bytesOf_append (id : Nat) (first second : List (Event ι)) :
    bytesOf id (first ++ second) = bytesOf id first ++ bytesOf id second := flatMap_append

theorem bytesOf_of_notMem {id : Nat} (absent : id ∉ written events) : bytesOf id events = [] := by
  refine flatMap_eq_nil_iff.mpr fun event member => ?_
  cases event with
  | wrote =>
    refine if_neg fun same => absent ?_
    exact mem_filterMap.mpr ⟨_, member, congrArg some same⟩
  | _ => rfl

theorem grants_false {event : Event ι} (isGrant : event.grants = true) :
    event.writes = none ∧ event.answers = none ∧ event.turns = none := by
  cases event with
  | greeted | claimed | leased | admitted => exact ⟨rfl, rfl, rfl⟩
  | started | wrote | offered | replied | acknowledged | inputAck => cases isGrant

/-- Events that grant write nothing. -/
theorem written_of_grants {events : List (Event ι)} (all : ∀ event ∈ events, event.grants = true) :
    written events = [] ∧ answered events = [] :=
  ⟨filterMap_eq_nil_iff.mpr fun event member => (grants_false (all event member)).1,
    filterMap_eq_nil_iff.mpr fun event member => (grants_false (all event member)).2.1⟩

theorem Renderer.Outside.nothing {r r' : Renderer ι} (outside : Renderer.Outside r r' events) :
    written events = [] ∧ answered events = [] := by
  rcases outside.granted with rfl | ⟨_, all⟩
  · exact ⟨rfl, rfl⟩
  · exact written_of_grants all

/-- Nothing is granted, and nothing is written but for one item. -/
def Alone (id : Nat) (events : List (Event ι)) : Prop :=
  ∀ event ∈ events, event.grants = false ∧ ∀ other, event.writes = some other → other = id

theorem alone_nil (id : Nat) : Alone id ([] : List (Event ι)) := nofun

theorem alone_singleton {id : Nat} {event : Event ι} (ungranted : event.grants = false)
    (own : ∀ other, event.writes = some other → other = id) : Alone id [event] := by
  intro event member
  rw [mem_singleton.mp member]
  exact ⟨ungranted, own⟩

theorem Alone.append {id : Nat} (alone : Alone id first) (alone' : Alone id second) :
    Alone id (first ++ second) := by
  intro event member
  rcases mem_append.mp member with before | after
  · exact alone event before
  · exact alone' event after

theorem Alone.written {id : Nat} (alone : Alone id events) :
    ∀ other ∈ written events, other = id := by
  intro other member
  obtain ⟨event, isEvent, writes⟩ := mem_filterMap.mp member
  exact (alone event isEvent).2 other writes

/-- The item that the writer was given and has not started. -/
def Writer.unstarted : Writer ι → Option Nat
  | .granting id _ | .scoping id _ | .fencing id _ => some id
  | _ => none

def Writer.current : Writer ι → Option Nat
  | .granting id _ | .scoping id _ | .fencing id _ => some id
  | .writing job => some job.id
  | _ => none

namespace Renderer

variable {link : Link} {scopes : ι → ClientInputScope} {r r' : Renderer ι} {act : Act ι}
  {events out : List (Event ι)}

theorem Sound.current_last (sound : Sound r) {id : Nat} (isCurrent : r.writer.current = some id) :
    id + 1 = r.next := by
  have placed := sound.placed
  cases isWriter : r.writer with
  | granting | scoping | fencing | writing =>
    rw [isWriter] at placed isCurrent
    cases isCurrent
    exact placed.1.last
  | idle | controlling | ended =>
    rw [isWriter] at isCurrent
    cases isCurrent

theorem current_of_unstarted {writer : Writer ι} {id : Nat}
    (unstarted : writer.unstarted = some id) :
    writer.current = some id := by
  cases writer with
  | granting | scoping | fencing => exact unstarted
  | writing | idle | controlling | ended => cases unstarted

/-! ## The ledger -/

/-- What has been seen agrees with where the writer is. -/
structure Ledger (r : Renderer ι) (out : List (Event ι)) : Prop where
  order : (written out).Pairwise (· ≤ ·)
  received : ∀ id ∈ written out, id < r.next
  pending : ∀ id, r.writer.unstarted = some id → id ∉ written out
  once : (answered out).Nodup
  closed : ∀ id ∈ answered out, id < r.next ∧ r.writer.current ≠ some id
  parts : ∀ job, r.writer = .writing job → .started job.id job.first ∈ out ∧
    ∀ index < job.index, .acked job.id job.first index ∈ out

theorem ledger_init (awaitingSpawn : Bool) : Ledger (init awaitingSpawn : Renderer ι) [] where
  order := .nil
  received := nofun
  pending := nofun
  once := .nil
  closed := nofun
  parts := nofun

/-- A step that writes nothing and leaves the writer outside of any write. -/
theorem Ledger.quiet (ledger : Ledger r out) (nothing : written events = [] ∧ answered events = [])
    (next : r.next ≤ r'.next)
    (pending : ∀ id, r'.writer.unstarted = some id → r.writer.unstarted = some id ∨ r.next ≤ id)
    (current : ∀ id, r'.writer.current = some id → r.writer.current = some id ∨ r.next ≤ id)
    (parts : ∀ job, r'.writer = .writing job → .started job.id job.first ∈ out ++ events ∧
      ∀ index < job.index, .acked job.id job.first index ∈ out ++ events) :
    Ledger r' (out ++ events) := by
  have sameWritten : written (out ++ events) = written out := by
    rw [written_append, nothing.1, append_nil]
  have sameAnswered : answered (out ++ events) = answered out := by
    rw [answered_append, nothing.2, append_nil]
  refine ⟨?_, ?_, ?_, ?_, ?_, parts⟩
  · rw [sameWritten]
    exact ledger.order
  · rw [sameWritten]
    exact fun id member => Nat.lt_of_lt_of_le (ledger.received id member) next
  · rw [sameWritten]
    intro id unstarted member
    rcases pending id unstarted with before | later
    · exact ledger.pending id before member
    · exact absurd (ledger.received id member) (Nat.not_lt_of_le later)
  · rw [sameAnswered]
    exact ledger.once
  · rw [sameAnswered]
    intro id member
    obtain ⟨received, free⟩ := ledger.closed id member
    refine ⟨Nat.lt_of_lt_of_le received next, fun isCurrent => ?_⟩
    rcases current id isCurrent with before | later
    · exact free before
    · exact absurd received (Nat.not_lt_of_le later)

/-- A started write goes on or ends, with at most its own bytes and its own answer. -/
theorem Ledger.job (sound : Sound r) (ledger : Ledger r out) {job : Job ι}
    (writes : r.writer = .writing job) (own : ∀ id ∈ written events, id = job.id)
    (single : answered events = [] ∨ answered events = [job.id] ∧ r'.writer.current = none)
    (next : r'.next = r.next) (unstarted : r'.writer.unstarted = none)
    (current : ∀ id, r'.writer.current = some id → id = job.id)
    (parts : ∀ job, r'.writer = .writing job → .started job.id job.first ∈ out ++ events ∧
      ∀ index < job.index, .acked job.id job.first index ∈ out ++ events) :
    Ledger r' (out ++ events) := by
  have isCurrent : r.writer.current = some job.id := by rw [writes]; rfl
  have last := sound.current_last isCurrent
  have unanswered : job.id ∉ answered out := fun member =>
    (ledger.closed job.id member).2 isCurrent
  refine ⟨?_, ?_, ?_, ?_, ?_, parts⟩
  · rw [written_append]
    refine pairwise_append.mpr ⟨ledger.order, ?_, ?_⟩
    · exact pairwise_of_forall_mem_list fun a isA b isB =>
        Nat.le_of_eq ((own a isA).trans (own b isB).symm)
    · intro a isA b isB
      have := ledger.received a isA
      rw [own b isB]
      omega
  · intro id member
    rw [written_append, mem_append] at member
    rw [next]
    rcases member with before | now
    · exact ledger.received id before
    · rw [own id now]
      omega
  · rw [unstarted]
    exact nofun
  · rw [answered_append]
    rcases single with none | ⟨one, _⟩
    · rw [none, append_nil]
      exact ledger.once
    · rw [one]
      exact nodup_append.mpr ⟨ledger.once, nodup_singleton _, fun a isA b isB same => by
        rw [mem_singleton.mp isB] at same
        exact unanswered (same ▸ isA)⟩
  · intro id member
    rw [answered_append, mem_append] at member
    rw [next]
    rcases member with before | now
    · refine ⟨(ledger.closed id before).1, fun isNow => ?_⟩
      rw [current id isNow] at before
      exact unanswered before
    · rcases single with none | ⟨one, ended⟩
      · rw [none] at now
        cases now
      · rw [one] at now
        rw [mem_singleton.mp now, ended]
        exact ⟨by omega, nofun⟩

theorem Given.alone (isGiven : Given job bytes given) : Alone job.id given := by
  cases isGiven with
  | nothing => exact alone_nil job.id
  | offered | wrote => exact alone_singleton rfl fun other same => (some.inj same).symm
  | refused => exact alone_singleton rfl nofun

theorem Given.answered (isGiven : Given job bytes given) : answered given = [] := by
  cases isGiven <;> rfl

theorem Given.turns (isGiven : Given job bytes given) : ∀ event ∈ given, event.turns = none := by
  cases isGiven with
  | nothing => nofun
  | offered | wrote | refused => exact fun event member => mem_singleton.mp member ▸ rfl

theorem Given.gives {bytes : Bytes} (isGiven : Given job bytes given) :
    bytesOf job.id given = bytes := by
  cases isGiven with
  | wrote bytes => exact (append_nil _).trans (if_pos rfl)
  | nothing | offered | refused => rfl

/-- What follows the bytes of a part has none. -/
theorem Given.written (isGiven : Given job bytes given) (nothing : Input.written events = []) :
    ∀ id ∈ written (given ++ events), id = job.id := by
  rw [written_append, nothing, append_nil]
  exact isGiven.alone.written

theorem Given.bytes_append {bytes : Bytes} (isGiven : Given job bytes given)
    (nothing : Input.written events = []) : bytesOf job.id (given ++ events) = bytes := by
  rw [bytesOf_append, isGiven.gives, bytesOf_of_notMem (by rw [nothing]; nofun), append_nil]

theorem answer_spec (id : Nat) (write : PtyWrite ι) :
    written (answer id write) = [] ∧ (answered (answer id write) = [] ∨
      answered (answer id write) = [id]) := by
  unfold answer
  split
  · exact ⟨rfl, .inr rfl⟩
  · exact ⟨rfl, .inl rfl⟩

theorem Ledger.step (sound : Sound r) (ledger : Ledger r out)
    (step : Step scopes r act r' events) : Ledger r' (out ++ events) := by
  have kept : ∀ job, r.writer = .writing job → .started job.id job.first ∈ out ++ events ∧
      ∀ index < job.index, .acked job.id job.first index ∈ out ++ events := by
    intro job writes
    obtain ⟨started, acked⟩ := ledger.parts job writes
    exact ⟨mem_append_left _ started, fun index less =>
      mem_append_left _ (acked index less)⟩
  cases step with
  | outside outside =>
    refine ledger.quiet outside.nothing (Nat.le_of_eq outside.aside.next.symm) ?_ ?_ ?_ <;>
      rw [outside.aside.writer]
    · exact fun id => .inl
    · exact fun id => .inl
    · exact kept
  | moved _ writer _ unstarted free starts later _ _ _ fresh =>
    have isNew : ∀ id, writer.current = some id → r.next ≤ id := by
      intro id isCurrent
      cases writer with
      | granting id' write =>
        obtain rfl := some.inj isCurrent
        exact Nat.le_of_eq (fresh id' write rfl).symm
      | scoping | fencing => cases free
      | writing job => exact absurd rfl (starts job)
      | idle | controlling | ended => cases isCurrent
    exact ledger.quiet ⟨rfl, rfl⟩ later
      (fun id unstarted => .inr (isNew id (current_of_unstarted unstarted)))
      (fun id isCurrent => .inr (isNew id isCurrent)) fun job writes => absurd writes (starts job)
  | locked id _ granting =>
    refine ledger.quiet ⟨rfl, rfl⟩ (Nat.le_refl _) ?_ ?_ nofun <;> rw [granting] <;>
      exact fun id => .inl
  | released _ _ _ _ after =>
    refine ledger.quiet ⟨rfl, rfl⟩ (Nat.le_refl _) ?_ ?_ ?_
    all_goals rcases after with rfl | rfl <;> exact nofun
  | admitted id _ admitted =>
    refine ledger.quiet ⟨rfl, rfl⟩ (Nat.le_refl _) ?_ ?_ nofun <;> rw [admitted.writer] <;>
      exact fun id => .inl
  | begun _ _ _ _ _ isReady =>
    obtain ⟨_, _, _, _, _, later⟩ := isReady.spec sound
    refine ledger.quiet ⟨rfl, rfl⟩ later nofun ?_ ?_
    · intro id' isCurrent
      obtain rfl := some.inj isCurrent
      cases isReady with
      | fenced fencing =>
        rw [fencing]
        exact .inl rfl
      | trusted _ _ isNext => exact .inr (Nat.le_of_eq isNext.symm)
    · intro job writes
      cases writes
      exact ⟨mem_append_right _ mem_cons_self, nofun⟩
  | exhausted _ write ready isReady =>
    obtain ⟨_, _, _, _, _, later⟩ := isReady.spec sound
    obtain ⟨_, unlocked⟩ := unlock_eq ready write
    rw [unlocked]
    exact ledger.quiet ⟨rfl, rfl⟩ later nofun nofun nofun
  | gave job _ _ _ _ _ writes isGiven =>
    refine ledger.job sound writes isGiven.alone.written (.inl isGiven.answered) rfl
      rfl (fun id isCurrent => (some.inj isCurrent).symm) fun job' writes' => ?_
    cases writes'
    exact kept job writes
  | advanced job _ _ _ writes isGiven =>
    refine ledger.job sound writes (isGiven.written rfl) (.inl ?_) rfl rfl
      (fun id isCurrent => (some.inj isCurrent).symm) fun job' writes' => ?_
    · rw [answered_append, isGiven.answered]
      rfl
    · cases writes'
      obtain ⟨started, acked⟩ := kept job writes
      refine ⟨started, fun index less => ?_⟩
      rcases Nat.lt_succ_iff_lt_or_eq.mp less with before | rfl
      · exact acked index before
      · exact mem_append_right _ (mem_append_right _ mem_cons_self)
  | completed job _ writes isGiven =>
    obtain ⟨_, unlocked⟩ := unlock_eq r job.write
    rw [unlocked]
    obtain ⟨noBytes, answers⟩ := answer_spec job.id job.write
    refine ledger.job sound writes (isGiven.written noBytes) ?_ rfl rfl nofun nofun
    rw [answered_append, isGiven.answered]
    exact answers.imp_right fun one => ⟨one, rfl⟩
  | abandoned job _ writes isGiven =>
    unfold abandon
    obtain ⟨_, unlocked⟩ := unlock_eq r job.write
    rw [unlocked]
    exact ledger.job sound writes isGiven.alone.written (.inl isGiven.answered) rfl rfl nofun nofun

/-! ## The bytes -/

/-- The supervisor was given the bytes of each item in order, from its start. -/
structure Copied (r : Renderer ι) (out : List (Event ι)) : Prop where
  items : ∀ id write, r.items[id]? = some (.write write) → bytesOf id out <+: write.data
  rest : ∀ job, r.writer = .writing job →
    bytesOf job.id out ++ (job.left ++ job.rest.flatten) = job.write.data

theorem copied_init (awaitingSpawn : Bool) : Copied (init awaitingSpawn : Renderer ι) [] :=
  ⟨fun _ _ _ => nil_prefix, nofun⟩

theorem Ledger.fresh (ledger : Ledger r out) {id : Nat} (later : r.next ≤ id) :
    bytesOf id out = [] :=
  bytesOf_of_notMem fun member =>
    absurd (ledger.received id member) (Nat.not_lt_of_le later)

/-- A step without bytes. -/
theorem Copied.quiet (copied : Copied r out) (sound : Sound r) (ledger : Ledger r out)
    (nothing : written events = []) (items : ∃ more, r'.items = r.items ++ more)
    (rest : ∀ job, r'.writer = .writing job →
      bytesOf job.id out ++ (job.left ++ job.rest.flatten) = job.write.data) :
    Copied r' (out ++ events) := by
  have same : ∀ id, bytesOf id (out ++ events) = bytesOf id out := by
    intro id
    have none : bytesOf id events = [] := bytesOf_of_notMem (by rw [nothing]; nofun)
    rw [bytesOf_append, none, append_nil]
  refine ⟨fun id write isItem => ?_, fun job writes => ?_⟩
  · rw [same]
    obtain ⟨_, grown⟩ := items
    rw [grown] at isItem
    rcases Nat.lt_or_ge id r.items.length with old | new
    · rw [getElem?_append_left old] at isItem
      exact copied.items id write isItem
    · rw [ledger.fresh (Nat.le_trans sound.bound new)]
      exact nil_prefix
  · rw [same]
    exact rest job writes

/-- A step of a started write, which gives a piece of what is left. -/
theorem Copied.job {job : Job ι} (copied : Copied r out) (sound : Sound r)
    (writes : r.writer = .writing job)
    (own : ∀ id ∈ written events, id = job.id) (isBytes : bytesOf job.id events = bytes)
    (fits : bytes <+: job.left) (items : r'.items = r.items)
    (rest : ∀ job', r'.writer = .writing job' → job'.id = job.id ∧ job'.write = job.write ∧
      bytes ++ (job'.left ++ job'.rest.flatten) = job.left ++ job.rest.flatten) :
    Copied r' (out ++ events) := by
  have before := copied.rest job writes
  have now : bytesOf job.id (out ++ events) = bytesOf job.id out ++ bytes := by
    rw [bytesOf_append, isBytes]
  refine ⟨fun id write isItem => ?_, fun job' writes' => ?_⟩
  · rw [items] at isItem
    rcases eq_or_ne id job.id with rfl | other
    · cases (sound.writing writes).1.1.item.symm.trans isItem
      rw [now, ← before, prefix_append_right_inj]
      exact fits.trans (prefix_append _ _)
    · rw [bytesOf_append, bytesOf_of_notMem fun member => other (own id member), append_nil]
      exact copied.items id write isItem
  · obtain ⟨isId, isWrite, left⟩ := rest job' writes'
    rw [isId, isWrite, now, append_assoc, left]
    exact before

theorem Copied.step (copied : Copied r out) (sound : Sound r) (ledger : Ledger r out)
    (step : Step scopes r act r' events) : Copied r' (out ++ events) := by
  have unchanged : ∃ more, r.items = r.items ++ more := ⟨[], (append_nil _).symm⟩
  cases step with
  | outside outside =>
    refine copied.quiet sound ledger outside.nothing.1 outside.aside.items ?_
    rw [outside.aside.writer]
    exact copied.rest
  | moved _ _ _ _ _ starts =>
    exact copied.quiet sound ledger rfl unchanged fun job writes => absurd writes (starts job)
  | locked | admitted => exact copied.quiet sound ledger rfl unchanged nofun
  | released _ _ _ _ after =>
    refine copied.quiet sound ledger rfl unchanged ?_
    rcases after with rfl | rfl <;> exact nofun
  | begun id _ ready _ _ isReady parts =>
    have items : ready.items = r.items := by rw [(isReady.spec sound).1]
    refine copied.quiet sound ledger rfl (by rw [items]; exact unchanged) fun job writes => ?_
    cases writes
    have nothing : bytesOf id out = [] := by
      cases isReady with
      | fenced fencing =>
        refine bytesOf_of_notMem (ledger.pending id ?_)
        rw [fencing]
        rfl
      | trusted _ _ isNext => exact ledger.fresh (Nat.le_of_eq isNext.symm)
    rw [nothing, nil_append, ← flatten_cons, ← parts, flatten_writeParts]
  | exhausted _ write ready isReady =>
    have items : ready.items = r.items := by rw [(isReady.spec sound).1]
    obtain ⟨_, unlocked⟩ := unlock_eq ready write
    rw [unlocked]
    exact copied.quiet sound ledger rfl (by rw [items]; exact unchanged) nofun
  | gave job _ _ left _ _ writes isGiven pieces =>
    refine copied.job sound writes isGiven.alone.written isGiven.gives ⟨left, pieces⟩ rfl
      fun job' writes' => ?_
    cases writes'
    exact ⟨rfl, rfl, by rw [← append_assoc, pieces]⟩
  | advanced job _ _ _ writes isGiven isRest =>
    refine copied.job sound writes (isGiven.written rfl) (isGiven.bytes_append rfl) prefix_rfl rfl
      fun job' writes' => ?_
    cases writes'
    exact ⟨rfl, rfl, by rw [isRest, flatten_cons]⟩
  | completed job _ writes isGiven =>
    obtain ⟨_, unlocked⟩ := unlock_eq r job.write
    rw [unlocked]
    have noBytes := (answer_spec job.id job.write).1
    exact copied.job sound writes (isGiven.written noBytes) (isGiven.bytes_append noBytes)
      prefix_rfl rfl nofun
  | abandoned job _ writes isGiven =>
    unfold abandon
    obtain ⟨_, unlocked⟩ := unlock_eq r job.write
    rw [unlocked]
    exact copied.job sound writes isGiven.alone.written isGiven.gives nil_prefix rfl nofun

/-! ## From the admission to the acknowledgement -/

/-- A connection's write was started and is not acknowledged, or nothing ever is again. -/
inductive Begun (r : Renderer ι) (id : Nat) : Prop
  | writing (job : Job ι) : r.writer = .writing job → job.id = id → job.write.guarded = true →
      Begun r id
  | lost : r.uncertain = true → Begun r id

/-- While no pump holds the serial lock, the pumps grant nothing. -/
theorem Outside.silent (outside : Outside r r' events) (unpumped : ∀ i, r.serial ≠ some (.pump i)) :
    events = [] := by
  rcases outside.granted with nothing | ⟨⟨i, isPump⟩, _⟩
  · exact nothing
  · exact absurd isPump (unpumped i)

theorem Sound.unpumped (sound : Sound r) (holds : r.writer.holds = true ∨ r.uncertain = true)
    (i : ι) : r.serial ≠ some (.pump i) := by
  rcases holds with held | uncertain
  · rw [sound.writer.mpr held]
    nofun
  · rw [(sound.certain uncertain).2]
    nofun

theorem Begun.of_running {id : Nat} (sound : Sound r) (begun : Begun r id)
    (runs : r.writer ≠ .ended) :
    ∃ job, r.writer = .writing job ∧ job.id = id ∧ job.write.guarded = true := by
  cases begun with
  | writing job writes isId guarded => exact ⟨job, writes, isId, guarded⟩
  | lost uncertain => exact absurd (sound.certain uncertain).1 runs

theorem Begun.of_writing {id : Nat} (sound : Sound r) (begun : Begun r id)
    (writes : r.writer = .writing job) : job.id = id ∧ job.write.guarded = true := by
  obtain ⟨_, writes', spec⟩ := begun.of_running sound (by rw [writes]; nofun)
  cases writes.symm.trans writes'
  exact spec

/-- A started write stays so until it is acknowledged. -/
theorem Begun.step {id : Nat} (sound : Sound r) (begun : Begun r id)
    (step : Step scopes r act r' events) :
    .acknowledged id ∈ events ∨ Alone id events ∧ Begun r' id := by
  -- the writer is at a job or has ended
  have absurdly : ∀ {writer : Writer ι} {goal : Prop}, r.writer = writer → writer ≠ .ended →
      (∀ job, writer ≠ .writing job) → goal := by
    rintro _ _ rfl runs unwritten
    obtain ⟨job, writes, _⟩ := begun.of_running sound runs
    exact absurd writes (unwritten job)
  cases step with
  | outside outside =>
    have holds : r.writer.holds = true ∨ r.uncertain = true := by
      cases begun with
      | writing _ writes _ guarded => exact .inl (by rw [writes]; exact guarded)
      | lost uncertain => exact .inr uncertain
    rw [outside.silent (sound.unpumped holds)]
    refine .inr ⟨alone_nil id, ?_⟩
    cases begun with
    | writing job writes isId guarded =>
      exact .writing job (outside.aside.writer.trans writes) isId guarded
    | lost uncertain => exact .lost (outside.aside.uncertain.trans uncertain)
  | moved _ _ _ unstarted =>
    cases begun with
    | writing job writes => exact absurd writes (unstarted job)
    | lost uncertain => exact .inr ⟨alone_nil id, .lost uncertain⟩
  | locked _ _ granting => exact absurdly granting nofun nofun
  | released _ _ _ before =>
    rcases before with scoping | ⟨fencing, _⟩
    · exact absurdly scoping nofun nofun
    · exact absurdly fencing nofun nofun
  | admitted _ _ admitted => exact absurdly admitted.writer nofun nofun
  | begun _ _ _ _ _ isReady | exhausted _ _ _ isReady =>
    cases isReady with
    | fenced fencing | trusted fencing => exact absurdly fencing nofun nofun
  | gave _ _ _ _ _ _ writes isGiven =>
    obtain ⟨rfl, guarded⟩ := begun.of_writing sound writes
    exact .inr ⟨isGiven.alone, .writing _ rfl rfl guarded⟩
  | advanced _ _ _ _ writes isGiven =>
    obtain ⟨rfl, guarded⟩ := begun.of_writing sound writes
    exact .inr ⟨isGiven.alone.append (alone_singleton rfl nofun),
      .writing _ rfl rfl guarded⟩
  | completed _ _ writes =>
    obtain ⟨rfl, _⟩ := begun.of_writing sound writes
    exact .inl (mem_append_right _ (mem_cons_of_mem _ mem_cons_self))
  | abandoned _ _ writes isGiven =>
    obtain ⟨rfl, guarded⟩ := begun.of_writing sound writes
    refine .inr ⟨isGiven.alone, .lost ?_⟩
    rw [abandon, guarded]
    exact Bool.or_true _

/-- An admitted write waits for the completion lock, is started, or is given up with the writer. -/
theorem fencing_step {id : Nat} {write : PtyWrite ι} (sound : Sound r)
    (fencing : r.writer = .fencing id write) (step : Step scopes r act r' events) :
    Alone id events ∧ written events = [] ∧
      (r'.writer = .fencing id write ∨ Begun r' id ∨ r'.writer = .ended) := by
  have holds : r.writer.holds = true := by rw [fencing]; rfl
  cases step with
  | outside outside =>
    rw [outside.silent (sound.unpumped (.inl holds))]
    exact ⟨alone_nil id, rfl, .inl (outside.aside.writer.trans fencing)⟩
  | moved _ _ unheld =>
    cases holds.symm.trans unheld
  | locked _ _ granting =>
    cases fencing.symm.trans granting
  | released _ _ _ before =>
    rcases before with scoping | ⟨_, ended⟩
    · cases fencing.symm.trans scoping
    · exact ⟨alone_nil id, rfl, .inr (.inr ended)⟩
  | admitted _ _ admitted =>
    have scoping := admitted.writer
    cases fencing.symm.trans scoping
  | begun id' write' _ _ _ isReady =>
    have same : r.writer = .fencing id' write' := by
      cases isReady with
      | fenced fencing' => exact fencing'
      | trusted isIdle =>
        cases fencing.symm.trans isIdle
    cases fencing.symm.trans same
    exact ⟨alone_singleton rfl nofun, rfl,
      .inr (.inl (.writing _ rfl rfl (sound.placedAt fencing).2))⟩
  | exhausted => exact ⟨alone_nil id, rfl, .inr (.inr rfl)⟩
  | gave _ _ _ _ _ _ writes | advanced _ _ _ _ writes | completed _ _ writes
  | abandoned _ _ writes =>
    cases fencing.symm.trans writes

/-- A writer that has ended writes nothing. -/
theorem Step.ended (step : Step scopes r act r' events) (isEnded : r.writer = .ended) :
    r'.writer = .ended ∧ written events = [] := by
  cases step with
  | outside outside => exact ⟨outside.aside.writer.trans isEnded, outside.nothing.1⟩
  | moved _ _ _ _ _ _ _ _ _ ends => exact ⟨ends isEnded, rfl⟩
  | locked _ _ granting =>
    cases isEnded.symm.trans granting
  | released _ _ _ before =>
    rw [isEnded] at before
    rcases before with scoping | ⟨fencing, _⟩
    · cases scoping
    · cases fencing
  | admitted _ _ admitted =>
    have scoping := admitted.writer
    cases isEnded.symm.trans scoping
  | begun _ _ _ _ _ isReady | exhausted _ _ _ isReady =>
    cases isReady with
    | fenced fencing | trusted fencing =>
      cases isEnded.symm.trans fencing
  | gave _ _ _ _ _ _ writes | advanced _ _ _ _ writes | completed _ _ writes
  | abandoned _ _ writes =>
    cases isEnded.symm.trans writes

section Runs

variable [DecidableEq ι]

theorem written_of_ended (sound : Sound r) (isEnded : r.writer = .ended) :
    written (outputs (react link scopes) r acts) = [] := by
  induction acts generalizing r with
  | nil => rfl
  | cons act _ ih =>
    have step : Step scopes r act _ _ := react_step link scopes sound act
    obtain ⟨ended, nothing⟩ := step.ended isEnded
    rw [outputs_cons, written_append, nothing, ih (sound.step step) ended]
    rfl

/-- **Alone until acknowledged.**  As long as a started write of a connection is not acknowledged
in full, nothing is granted and no other item is written. -/
theorem Begun.run {id : Nat} (sound : Sound r) (begun : Begun r id) (acts : List (Act ι))
    (unknown : .acknowledged id ∉ outputs (react link scopes) r acts) :
    Alone id (outputs (react link scopes) r acts) := by
  induction acts generalizing r with
  | nil => exact alone_nil id
  | cons act _ ih =>
    have step : Step scopes r act _ _ := react_step link scopes sound act
    rw [outputs_cons, mem_append, not_or] at unknown
    rw [outputs_cons]
    rcases begun.step sound step with acknowledged | ⟨alone, next⟩
    · exact absurd acknowledged unknown.1
    · exact alone.append (ih (sound.step step) next unknown.2)

/-- The same from the admission on, for a write that gets to its first byte at some time. -/
theorem fencing_run {id : Nat} (sound : Sound r) (fencing : r.writer = .fencing id write)
    (acts later : List (Act ι)) (unknown : .acknowledged id ∉ outputs (react link scopes) r acts)
    (writes : id ∈ written (outputs (react link scopes) r (acts ++ later))) :
    Alone id (outputs (react link scopes) r acts) := by
  induction acts generalizing r with
  | nil => exact alone_nil id
  | cons act rest ih =>
    have step : Step scopes r act _ _ := react_step link scopes sound act
    rw [outputs_cons, mem_append, not_or] at unknown
    obtain ⟨alone, nothing, next⟩ := fencing_step sound fencing step
    rw [cons_append, outputs_cons, written_append, nothing, nil_append] at writes
    rw [outputs_cons]
    refine alone.append ?_
    rcases next with still | begun | ended
    · exact ih (sound.step step) still unknown.2 writes
    · exact begun.run (sound.step step) rest unknown.2
    · rw [written_of_ended (sound.step step) ended] at writes
      cases writes

end Runs

/-! ## Where a write was admitted -/

/-- The write was admitted. -/
def Passed (id : Nat) (write : PtyWrite ι) : Writer ι → Prop
  | .fencing id' write' => id' = id ∧ write' = write
  | .writing job => job.id = id ∧ job.write = write ∧ write.guarded = true
  | _ => False

section

variable (step : Step scopes r act r' events)

include step

/-- A connection's write passes by its admission only. -/
theorem Step.passed {id : Nat} (passed : Passed id write r'.writer) :
    Passed id write r.writer ∨ AdmittedAt scopes r act id write := by
  cases step with
  | outside outside =>
    rw [outside.aside.writer] at passed
    exact .inl passed
  | moved _ writer _ _ free starts =>
    cases writer with
    | fencing => cases free
    | writing job => exact absurd rfl (starts job)
    | idle | granting | scoping | controlling | ended => exact passed.elim
  | locked => exact passed.elim
  | released _ _ _ _ after =>
    rcases after with rfl | rfl <;> exact passed.elim
  | admitted _ _ admitted =>
    obtain ⟨rfl, rfl⟩ := passed
    exact .inr admitted
  | begun _ _ _ _ _ isReady =>
    obtain ⟨rfl, rfl, guarded⟩ := passed
    cases isReady with
    | fenced fencing =>
      rw [fencing]
      exact .inl ⟨rfl, rfl⟩
    | trusted _ _ _ unguarded =>
      cases guarded.symm.trans unguarded
  | exhausted | completed | abandoned => exact passed.elim
  | gave job _ _ _ _ _ writes | advanced job _ _ _ writes =>
    rw [writes]
    exact .inl passed

/-- Bytes are written by the job that the writer is at. -/
theorem Step.writing {id : Nat} (member : id ∈ written events) :
    ∃ job, r.writer = .writing job ∧ job.id = id := by
  cases step with
  | outside outside =>
    rw [outside.nothing.1] at member
    cases member
  | moved | locked | released | admitted | begun | exhausted => cases member
  | gave job _ _ _ _ _ writes isGiven =>
    exact ⟨job, writes, (isGiven.alone.written id member).symm⟩
  | advanced job _ _ _ writes isGiven =>
    exact ⟨job, writes, (isGiven.written rfl id member).symm⟩
  | completed job _ writes isGiven =>
    have noBytes := (answer_spec job.id job.write).1
    exact ⟨job, writes, (isGiven.written (by exact noBytes) id member).symm⟩
  | abandoned job _ writes isGiven =>
    exact ⟨job, writes, (isGiven.alone.written id member).symm⟩

/-- The writer adds nothing to the queue and issues no lease. -/
theorem Step.aside (sound : Sound r) :
    Outside r r' events ∧ Puts act r r' ∨ r'.items = r.items ∧ r'.registry = r.registry := by
  cases step with
  | outside outside puts => exact .inl ⟨outside, puts⟩
  | moved | locked | released | admitted | gave | advanced => exact .inr ⟨rfl, rfl⟩
  | begun _ _ _ _ _ isReady =>
    rw [(isReady.spec sound).1]
    exact .inr ⟨rfl, rfl⟩
  | exhausted _ write ready isReady =>
    obtain ⟨_, unlocked⟩ := unlock_eq ready write
    rw [unlocked, (isReady.spec sound).1]
    exact .inr ⟨rfl, rfl⟩
  | completed job | abandoned job =>
    obtain ⟨_, unlocked⟩ := unlock_eq r job.write
    exact .inr (by simp only [abandon, unlocked, and_self])

theorem Step.puts (sound : Sound r) : Puts act r r' := by
  rcases step.aside sound with ⟨_, puts⟩ | ⟨items, _⟩
  · exact puts
  · exact puts_same items

/-- A write is started by the act that leaves the writer at it, and acknowledged by the act that
gets the last reply. -/
theorem Step.turns {id : Nat} (member : event ∈ events) (turns : event.turns = some id) :
    (∃ first job, event = .started id first ∧ r'.writer = .writing job ∧ job.id = id) ∨
      ∃ job earlier later, r.writer = .writing job ∧ job.id = id ∧ job.rest = [] ∧
        (event = .acknowledged id ∨ event = .inputAck id job.write.inputSeq ∧
          0 < job.write.inputSeq) ∧
        events = earlier ++ event :: later ∧ .acked id job.first job.index ∈ earlier ∧
        bytesOf id earlier = job.left := by
  have silent : ∀ {job : Job ι} {bytes : Bytes} {given : List (Event ι)}, Given job bytes given →
      event ∉ given := by
    intro job bytes given isGiven isMember
    rw [isGiven.turns event isMember] at turns
    cases turns
  cases step with
  | outside outside =>
    rcases outside.granted with rfl | ⟨_, all⟩
    · cases member
    · rw [(grants_false (all event member)).2.2] at turns
      cases turns
  | moved | locked | released | exhausted => cases member
  | admitted =>
    rw [mem_singleton.mp member] at turns
    cases turns
  | begun =>
    obtain rfl := mem_singleton.mp member
    cases turns
    exact .inl ⟨_, _, rfl, rfl, rfl⟩
  | gave _ _ _ _ _ _ _ isGiven | abandoned _ _ _ isGiven => exact absurd member (silent isGiven)
  | advanced _ _ _ _ _ isGiven =>
    rcases mem_append.mp member with before | after
    · exact absurd before (silent isGiven)
    · rw [mem_singleton.mp after] at turns
      cases turns
  | completed job given writes isGiven isRest =>
    rcases mem_append.mp member with before | after
    · exact absurd before (silent isGiven)
    rcases mem_cons.mp after with rfl | after
    · cases turns
    rcases mem_cons.mp after with rfl | last
    · cases turns
      refine .inr ⟨job, given ++ [.acked job.id job.first job.index], _, writes, rfl, isRest,
        .inl rfl, by rw [append_assoc]; rfl, ?_, isGiven.bytes_append rfl⟩
      exact mem_append_right _ mem_cons_self
    · unfold answer at last ⊢
      split at last
      · next asked =>
        obtain rfl := mem_singleton.mp last
        cases turns
        refine .inr ⟨job, given ++ [.acked job.id job.first job.index, .acknowledged job.id], [],
          writes, rfl, isRest, .inr ⟨rfl, asked.1⟩, by rw [if_pos asked, append_assoc]; rfl, ?_,
          isGiven.bytes_append rfl⟩
        exact mem_append_right _ mem_cons_self
      · cases last

end

section History

variable [DecidableEq ι]

theorem ledger_run (link : Link) (scopes : ι → ClientInputScope) (awaitingSpawn : Bool)
    (acts : List (Act ι)) :
    Sound (run (react link scopes) (init awaitingSpawn) acts) ∧
      Ledger (run (react link scopes) (init awaitingSpawn) acts)
        (outputs (react link scopes) (init awaitingSpawn) acts) :=
  outputs_preserve (fun (r : Renderer ι) out => Sound r ∧ Ledger r out)
    (fun _ _ act inv => ⟨inv.1.step (react_step link scopes inv.1 act),
      inv.2.step inv.1 (react_step link scopes inv.1 act)⟩)
    ⟨sound_init awaitingSpawn, ledger_init awaitingSpawn⟩ acts

theorem copied_run (link : Link) (scopes : ι → ClientInputScope) (awaitingSpawn : Bool)
    (acts : List (Act ι)) :
    Copied (run (react link scopes) (init awaitingSpawn) acts)
      (outputs (react link scopes) (init awaitingSpawn) acts) :=
  (outputs_preserve (fun (r : Renderer ι) out => (Sound r ∧ Ledger r out) ∧ Copied r out)
    (fun _ _ act inv => ⟨⟨inv.1.1.step (react_step link scopes inv.1.1 act),
      inv.1.2.step inv.1.1 (react_step link scopes inv.1.1 act)⟩,
      inv.2.step inv.1.1 inv.1.2 (react_step link scopes inv.1.1 act)⟩)
    ⟨⟨sound_init awaitingSpawn, ledger_init awaitingSpawn⟩, copied_init awaitingSpawn⟩ acts).2

theorem step_after (link : Link) (scopes : ι → ClientInputScope) (awaitingSpawn : Bool)
    (before : List (Act ι)) (act : Act ι) :
    let r := run (react link scopes) (init awaitingSpawn) before
    Step scopes r act (react link scopes r act).1 (react link scopes r act).2 :=
  react_step link scopes (ledger_run link scopes awaitingSpawn before).1 act

theorem items_run (sound : Sound r) (acts : List (Act ι)) :
    ∃ more, (run (react link scopes) r acts).items = r.items ++ more := by
  induction acts generalizing r with
  | nil => exact ⟨[], (append_nil _).symm⟩
  | cons act _ ih =>
    have step : Step scopes r act _ _ := react_step link scopes sound act
    obtain ⟨more', items'⟩ := ih (sound.step step)
    obtain ⟨more, items, _⟩ := step.puts sound
    exact ⟨more ++ more', by rw [run_cons, items', items, append_assoc]⟩

variable (link scopes) (awaitingSpawn : Bool) (acts : List (Act ι))

/-- The state after some acts. -/
abbrev after : Renderer ι := run (react link scopes) (init awaitingSpawn) acts

/-- What is seen of some acts. -/
abbrev seen : List (Event ι) := outputs (react link scopes) (init awaitingSpawn) acts

/-- An item keeps its place. -/
theorem item_after {id : Nat}
    (isItem : (after link scopes awaitingSpawn first).items[id]? = some item) :
    (after link scopes awaitingSpawn (first ++ second)).items[id]? = some item := by
  have sound := (ledger_run link scopes awaitingSpawn first).1
  have grown : ∃ more, (after link scopes awaitingSpawn (first ++ second)).items =
      (after link scopes awaitingSpawn first).items ++ more := by
    rw [after, run_append]
    exact items_run sound second
  obtain ⟨_, items⟩ := grown
  rw [items, getElem?_append_left (List.getElem?_eq_some_iff.mp isItem).1]
  exact isItem

/-- A connection's write that is past its admission was admitted at some act, before any of its
bytes. -/
theorem exists_admission {id : Nat}
    (passed : Passed id write (after link scopes awaitingSpawn acts).writer) :
    ∃ before act rest, acts = before ++ act :: rest ∧
      AdmittedAt scopes (after link scopes awaitingSpawn before) act id write ∧
      id ∉ written (seen link scopes awaitingSpawn before) := by
  induction acts using reverseRecOn with
  | nil => exact passed.elim
  | append_singleton acts act ih =>
    rw [after, run_append] at passed
    rcases (step_after link scopes awaitingSpawn acts act).passed passed with before | admitted
    · obtain ⟨first, act', rest, rfl, admission⟩ := ih before
      exact ⟨first, act', rest ++ [act], by simp, admission⟩
    · have ledger := (ledger_run link scopes awaitingSpawn acts).2
      refine ⟨acts, act, [], rfl, admitted, ledger.pending id ?_⟩
      rw [admitted.writer]
      rfl

/-- What holds of the input of a renderer. -/
structure Orderly : Prop where
  /-- Items are written in queue order, and the bytes of two items do not interleave. -/
  order : (written (seen link scopes awaitingSpawn acts)).Pairwise (· ≤ ·)
  /-- The supervisor is given each item from its start, without gaps. -/
  copied : ∀ id write, (after link scopes awaitingSpawn acts).items[id]? = some (.write write) →
    bytesOf id (seen link scopes awaitingSpawn acts) <+: write.data
  /-- An item with an input number is one input: the act that put it into the queue put nothing
  else. -/
  inputs : ∀ id write, (after link scopes awaitingSpawn acts).items[id]? = some (.write write) →
    0 < write.inputSeq → ∃ before act rest, acts = before ++ act :: rest ∧ act.Inputs write ∧
      (after link scopes awaitingSpawn before).items.length = id ∧
      (after link scopes awaitingSpawn (before ++ [act])).items.length = id + 1
  /-- A connection's write with a byte written was admitted before; from then on and until it is
  acknowledged in full it is alone. -/
  admitted : ∀ id write, (after link scopes awaitingSpawn acts).items[id]? = some (.write write) →
    write.guarded = true → id ∈ written (seen link scopes awaitingSpawn acts) →
      ∃ before act rest, acts = before ++ act :: rest ∧
        AdmittedAt scopes (after link scopes awaitingSpawn before) act id write ∧
        id ∉ written (seen link scopes awaitingSpawn before) ∧
        ∀ middle later, rest = middle ++ later →
          .acknowledged id ∉ outputs (react link scopes)
            (after link scopes awaitingSpawn (before ++ [act])) middle →
          Alone id (outputs (react link scopes)
            (after link scopes awaitingSpawn (before ++ [act])) middle)
  /-- After the start of a connection's write nothing follows until it is acknowledged in full. -/
  unknown : ∀ before act rest id first write, acts = before ++ act :: rest →
    .started id first ∈ (react link scopes (after link scopes awaitingSpawn before) act).2 →
    (after link scopes awaitingSpawn acts).items[id]? = some (.write write) →
    write.guarded = true →
    .acknowledged id ∉ outputs (react link scopes)
      (after link scopes awaitingSpawn (before ++ [act])) rest →
    Alone id (outputs (react link scopes) (after link scopes awaitingSpawn (before ++ [act])) rest)
  /-- Every lease that the registry issues is seen. -/
  leased : ∀ before act rest, acts = before ++ act :: rest →
    (after link scopes awaitingSpawn (before ++ [act])).registry.generation ≠
      (after link scopes awaitingSpawn before).registry.generation →
    ∃ i, .leased i ∈ (react link scopes (after link scopes awaitingSpawn before) act).2
  /-- No input is acknowledged to its client twice. -/
  once : (answered (seen link scopes awaitingSpawn acts)).Nodup
  /-- A write is acknowledged in full, and to its client under the number of its input, only after
  all its bytes were given and each of its parts was answered with the sequence number that is
  reserved for it. -/
  answered : ∀ before act rest id event, acts = before ++ act :: rest →
    event ∈ (react link scopes (after link scopes awaitingSpawn before) act).2 →
    event = .acknowledged id ∨ (∃ inputSeq, event = .inputAck id inputSeq) →
    ∃ write first earlier later,
      (after link scopes awaitingSpawn acts).items[id]? = some (.write write) ∧
      (event = .acknowledged id ∨ event = .inputAck id write.inputSeq ∧ 0 < write.inputSeq) ∧
      (react link scopes (after link scopes awaitingSpawn before) act).2 =
        earlier ++ event :: later ∧
      .started id first ∈ seen link scopes awaitingSpawn before ∧
      (∀ index < (writeParts write.data write.shape).length,
        .replied id index (first + index + 1) (.writeAck (first + index + 1)) ∈
          seen link scopes awaitingSpawn before ++ earlier) ∧
      bytesOf id (seen link scopes awaitingSpawn before ++ earlier) = write.data

variable {link scopes awaitingSpawn acts}

theorem after_concat :
    after link scopes awaitingSpawn (before ++ [act]) =
      (react link scopes (after link scopes awaitingSpawn before) act).1 := by
  rw [after, run_append]
  rfl

/-- The item that the writer is at, in the queue of a later time. -/
theorem job_item {before rest : List (Act ι)}
    (writes : (after link scopes awaitingSpawn before).writer = .writing job)
    (isItem : (after link scopes awaitingSpawn (before ++ rest)).items[job.id]? =
      some (.write write)) : job.write = write := by
  have sound := (ledger_run link scopes awaitingSpawn before).1
  have placed : (after link scopes awaitingSpawn (before ++ rest)).items[job.id]? =
      some (.write job.write) :=
    item_after link scopes awaitingSpawn (sound.writing writes).1.1.item
  cases placed.symm.trans isItem
  rfl

/-- A write with a byte written was past its admission at the act that wrote the byte. -/
theorem admitted_of_written {id : Nat}
    (isItem : (after link scopes awaitingSpawn acts).items[id]? = some (.write write))
    (guarded : write.guarded = true) (member : id ∈ written (seen link scopes awaitingSpawn acts)) :
    ∃ before act rest, acts = before ++ act :: rest ∧
      AdmittedAt scopes (after link scopes awaitingSpawn before) act id write ∧
      id ∉ written (seen link scopes awaitingSpawn before) := by
  obtain ⟨event, isSeen, isWrite⟩ := mem_filterMap.mp member
  obtain ⟨before, act, rest, rfl, here⟩ := exists_of_mem_outputs _ isSeen
  have step := step_after link scopes awaitingSpawn before act
  obtain ⟨job, writes, rfl⟩ := step.writing (mem_filterMap.mpr ⟨event, here, isWrite⟩)
  have same := job_item writes isItem
  have passed : Passed job.id write (after link scopes awaitingSpawn before).writer := by
    rw [writes]
    exact ⟨rfl, same, guarded⟩
  obtain ⟨first, act', middle, rfl, admission⟩ :=
    exists_admission link scopes awaitingSpawn _ passed
  exact ⟨first, act', middle ++ act :: rest, by simp, admission⟩

/-- After its admission a write waits for the completion lock. -/
theorem AdmittedAt.fencing {id : Nat}
    (admitted : AdmittedAt scopes (after link scopes awaitingSpawn before) act id write) :
    (after link scopes awaitingSpawn (before ++ [act])).writer = .fencing id write := by
  obtain ⟨permission, _, _, authority, rfl, allowed, current⟩ := admitted.allowed
  have permitted : (after link scopes awaitingSpawn before).permitted permission = true := by
    rcases current with rfl | ⟨_, rfl, isCurrent⟩
    · rfl
    · exact isCurrent
  rw [after_concat]
  simp only [react, admitted.writer, writerScope, authority, allowed, permitted, Bool.and_self,
    if_true]

/-- An item with an input number comes from one input. -/
theorem input_of_item {id : Nat}
    (isItem : (after link scopes awaitingSpawn acts).items[id]? = some (.write write))
    (numbered : 0 < write.inputSeq) :
    ∃ before act rest, acts = before ++ act :: rest ∧ act.Inputs write ∧
      (after link scopes awaitingSpawn before).items.length = id ∧
      (after link scopes awaitingSpawn (before ++ [act])).items.length = id + 1 := by
  induction acts using reverseRecOn with
  | nil => cases isItem
  | append_singleton acts act ih =>
    have sound := (ledger_run link scopes awaitingSpawn acts).1
    obtain ⟨more, grown, single⟩ := (step_after link scopes awaitingSpawn acts act).puts sound
    rw [← after_concat] at grown
    rw [grown] at isItem
    rcases Nat.lt_or_ge id (after link scopes awaitingSpawn acts).items.length with old | new
    · rw [getElem?_append_left old] at isItem
      obtain ⟨before, act', rest, rfl, spec⟩ := ih isItem
      exact ⟨before, act', rest ++ [act], by simp, spec⟩
    · rw [getElem?_append_right new] at isItem
      obtain ⟨rfl, isInput⟩ := single write (mem_of_getElem? isItem) numbered
      have first := (List.getElem?_eq_some_iff.mp isItem).1
      rw [length_singleton] at first
      obtain rfl : id = (after link scopes awaitingSpawn acts).items.length := by omega
      exact ⟨acts, act, [], rfl, isInput, rfl, by rw [grown, length_append, length_singleton]⟩

/-- **Input is written in order, under control, and never past an unknown outcome.**  Whatever the
clients, the kernel and the supervisor do, and wherever a pump or the writer is cancelled. -/
theorem input_orderly (link : Link) (scopes : ι → ClientInputScope) (awaitingSpawn : Bool)
    (acts : List (Act ι)) : Orderly link scopes awaitingSpawn acts where
  order := (ledger_run link scopes awaitingSpawn acts).2.order
  copied := (copied_run link scopes awaitingSpawn acts).items
  inputs _ _ isItem numbered := input_of_item isItem numbered
  admitted id write isItem guarded member := by
    obtain ⟨before, act, rest, split, admission, unwritten⟩ :=
      admitted_of_written isItem guarded member
    refine ⟨before, act, rest, split, admission, unwritten, fun middle later isRest unknown => ?_⟩
    have sound := (ledger_run link scopes awaitingSpawn (before ++ [act])).1
    refine fencing_run sound admission.fencing middle later unknown ?_
    -- the byte was written after the admission
    rw [split, seen, append_cons, outputs_append, written_append, mem_append,
      outputs_append, written_append, mem_append] at member
    rcases member with (early | now) | late
    · exact absurd early unwritten
    · rw [outputs_cons, outputs_nil, append_nil] at now
      obtain ⟨job, writes, _⟩ := (step_after link scopes awaitingSpawn before act).writing now
      cases admission.writer.symm.trans writes
    · rw [← isRest]
      exact late
  unknown := by
    rintro before act rest id _ _ rfl started isItem guarded unknown
    have step := step_after link scopes awaitingSpawn before act
    have begins : ∃ job, (after link scopes awaitingSpawn (before ++ [act])).writer = .writing job ∧
        job.id = id := by
      rw [after_concat]
      rcases step.turns started rfl with
        ⟨_, job, _, writes, isId⟩ | ⟨_, _, _, _, _, _, other | ⟨other, _⟩, _⟩
      · exact ⟨job, writes, isId⟩
      all_goals cases other
    obtain ⟨job, writes, rfl⟩ := begins
    rw [append_cons] at isItem
    have same := job_item writes isItem
    exact Begun.run (ledger_run link scopes awaitingSpawn (before ++ [act])).1
      (.writing job writes rfl (by rw [same]; exact guarded)) rest unknown
  leased := by
    rintro before act rest rfl changed
    have sound := (ledger_run link scopes awaitingSpawn before).1
    rw [after_concat] at changed
    rcases (step_after link scopes awaitingSpawn before act).aside sound with
      ⟨outside, _⟩ | ⟨_, registry⟩
    · exact outside.leased changed
    · exact absurd (congrArg OwnerRegistry.generation registry) changed
  once := (ledger_run link scopes awaitingSpawn acts).2.once
  answered := by
    rintro before act _ id event rfl isAnswer answers
    obtain ⟨sound, ledger⟩ := ledger_run link scopes awaitingSpawn before
    have copied := copied_run link scopes awaitingSpawn before
    have step := step_after link scopes awaitingSpawn before act
    have turns : event.turns = some id := by
      rcases answers with rfl | ⟨_, rfl⟩ <;> rfl
    rcases step.turns isAnswer turns with ⟨_, _, rfl, _⟩ |
      ⟨job, earlier, later, writes, rfl, isRest, same, isEvents, last, isBytes⟩
    · rcases answers with other | ⟨_, other⟩ <;> cases other
    obtain ⟨placed, _⟩ := sound.writing writes
    obtain ⟨started, acked⟩ := ledger.parts job writes
    refine ⟨job.write, job.first, earlier, later,
      item_after link scopes awaitingSpawn placed.1.item, same, isEvents, started,
      fun index less => ?_, ?_⟩
    · rw [placed.2.1, isRest] at less
      rcases Nat.lt_succ_iff_lt_or_eq.mp less with before | rfl
      · exact mem_append_left _ (acked index before)
      · exact mem_append_right _ last
    · have rest := copied.rest job writes
      rw [isRest, flatten_nil, append_nil] at rest
      rw [bytesOf_append, isBytes, rest]

/-- A client attaches as the owner and submits a line, which is written as its text and the CR. -/
def submit (acts : List (Act Unit)) : List (Act Unit) :=
  let hello : ClientHello :=
    ⟨protocolVersion, "t", 1, .none, none, ⟨[.vt], false, false, false, false⟩⟩
  let ctx : SessionContext := ⟨"t", 2, ⟨80, 24, none, none⟩, 0, 0, 0, true, none, none, id⟩
  [.firstFrame () (.clientHello hello), .pumpLocks (), .pumpScope () true ⟨[]⟩ ctx,
    .frame () (.input [104, 105, 13] 7) .splitTrailingCr false ⟨[]⟩ ctx, .receive, .writerLocks,
    .writerScope true, .writerFence] ++ acts

theorem input_orderly_submit :
    let scopes : Unit → ClientInputScope := fun _ => .bound
    let stream := submit [.hand 1, .hand 1, .reply (.writeAck 1), .hand 1, .reply (.writeAck 2)]
    let engine := submit [.request, .interact (.stdinProgress 0), .request,
      .interact (.stdinProgress 2), .request, .interact (.stdinProgress 1)]
    seen .legacy scopes false stream =
        [.greeted (), .leased (), .admitted 0, .started 0 0, .wrote 0 0 1 [104],
          .wrote 0 0 1 [105], .replied 0 0 1 (.writeAck 1), .wrote 0 1 2 [13],
          .replied 0 1 2 (.writeAck 2), .acknowledged 0, .inputAck 0 7] ∧
      seen .typed scopes false engine =
        [.greeted (), .leased (), .admitted 0, .started 0 0, .offered 0 0 1 [104, 105],
          .wrote 0 0 1 [], .offered 0 0 1 [104, 105], .wrote 0 0 1 [104, 105],
          .replied 0 0 1 (.writeAck 1), .offered 0 1 2 [13], .wrote 0 1 2 [13],
          .replied 0 1 2 (.writeAck 2), .acknowledged 0, .inputAck 0 7] ∧
      Orderly .legacy scopes false stream ∧ Orderly .typed scopes false engine :=
  ⟨by decide, by decide, input_orderly _ _ _ _, input_orderly _ _ _ _⟩

end History

end Renderer

end NeigeCalm.Terminal.Input
