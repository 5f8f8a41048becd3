import NeigeCalm.Checkout.Occupancy
import NeigeCalm.Operations.Settlement

/-!
# Readers and writers of a checkout

An attempt is inside the checkout from its preparation until it has left flight, its lease is
released and its delivery has settled (`Inside`).  No single table says so: while it runs its
task row counts, after a cancellation its lease, after its end its delivery.  The occupancy
covers the three together (`occupancy_covers`), so a preparation that was admitted finds
nobody inside, or readers only.

`Step` is everything that happens to the rows of a track.  What is not an admission only
shrinks who is inside; the two steps that admit somebody, a preparation and the second run of
a failed gate, ask the occupancy first.  `Moves` says what the steps have in common, and the
invariant (`Sound`) is proved from it once.
-/

namespace NeigeCalm.Checkout

open Library Operations List

/-! ## The occupancy of a list -/

variable {occupancy : CheckoutOccupancy} {tasks : List Task}

theorem join_admits (h : (occupancy.join held).admits asked = true) :
    occupancy.admits asked = true ∧ held = .readOnly ∧ asked = .readOnly := by
  cases occupancy <;> cases held <;> cases asked <;> simp_all [CheckoutOccupancy.join,
    CheckoutOccupancy.admits]

/-- What is admitted beside a list of accesses is admitted beside each of them. -/
theorem foldl_join_admits {accesses : List TaskAccess}
    (h : (accesses.foldl .join occupancy).admits asked = true) :
    occupancy.admits asked = true ∧ ∀ held ∈ accesses, held = .readOnly ∧ asked = .readOnly := by
  induction accesses generalizing occupancy with
  | nil => exact ⟨h, nofun⟩
  | cons _ _ ih =>
    obtain ⟨admitted, others⟩ := ih h
    obtain ⟨admitted, both⟩ := join_admits admitted
    refine ⟨admitted, fun held mem => ?_⟩
    rcases mem_cons.mp mem with rfl | mem
    · exact both
    · exact others held mem

/-! ## The rows of a track over time -/

/-- The attempt a lease belongs to. -/
def Track.leaseAttempt (track : Track V) (lease : WorkspaceLease) : Option Text :=
  (track.leaseOperation lease).bind (·.idempotencyKey)

/-- Release an active lease.  A lease that changes the checkout is delivered: its attempt gets
its delivery row in the same transaction, unless it has one. -/
def Track.releaseLease (track : Track V) (lease : WorkspaceLease) : Track V :=
  { track with
    leases := track.leases.map fun other =>
      if other.id = lease.id then { other with state := .released } else other
    deliveries :=
      match track.leaseAttempt lease with
      | some attempt =>
        if lease.access = .readWrite ∧ ∀ delivery ∈ track.deliveries,
            delivery.producer ≠ attempt then track.deliveries ++ [⟨attempt, false⟩]
        else track.deliveries
      | none => track.deliveries }

def Track.settleDelivery (track : Track V) (producer : Text) : Track V :=
  { track with
    deliveries := track.deliveries.map fun delivery =>
      if delivery.producer = producer then { delivery with settled := true } else delivery }

/-- A track with the attempts that were ever prepared in its checkout. -/
structure System (V : Type) where
  track : Track V
  entered : List Text

def Inside (s : System V) (id : Text) : Prop :=
  id ∈ s.entered ∧
    ((∃ task ∈ s.track.tasks, task.id = id ∧ task.status.isInFlight = true) ∨
      (∃ lease ∈ s.track.leases, lease.active = true ∧ s.track.leaseAttempt lease = some id) ∨
      ∃ delivery ∈ s.track.deliveries, delivery.producer = id ∧ delivery.settled = false)

variable [DecidableEq V]

/-- One transaction on the rows of the track. -/
inductive Step (s : System V) : System V → Prop
  | claim {now : Int} {fenced : Bool} {id : Text} {track : Track V}
      (claimed : claimTask now fenced s.track id = some track) : Step s { s with track }
  /-- The scheduler submits an operation; one per kind and key. -/
  | submit {inputs : Inputs V} {phaseDetail : Option PhaseDetail}
      (fresh : ∀ op ∈ s.track.operations, op.id ≠ inputs.id)
      (unique : ∀ op ∈ s.track.operations, op.kind = inputs.kind → inputs.idempotencyKey ≠ none →
        op.idempotencyKey ≠ inputs.idempotencyKey) :
      Step s { s with track := { s.track with
        operations := s.track.operations ++ [insertPendingRow inputs phaseDetail] } }
  /-- Any write of the operations repository: claims, yields, phases, settlements; none leaves
  an operation stuck. -/
  | operate {now : Int} {action : Action V} {op op' : Operation V} {effect : Effect}
      (mem : op ∈ s.track.operations) (done : perform now action op = some (effect, op'))
      (notStuck : op'.phase ≠ .stuck) : Step s { s with track := s.track.setOperation op' }
  | prepare {now : Int} {op : Operation V} {output : TxOutput V} {lease : Text} {task : Task}
      {track : Track V} (prepared : prepare now s.track op output lease = some (task, track)) :
      Step s ⟨track, task.id :: s.entered⟩
  /-- A worker starts, reports, fails or times out, a gate decides, or an attempt is
  canceled. -/
  | report {task : Task} {status : TaskStatus} (mem : task ∈ s.track.tasks)
      (live : task.status.isInFlight = true) (moved : status ≠ .pending) :
      Step s { s with track := s.track.setStatus task.id status }
  | cancelPending {task : Task} (mem : task ∈ s.track.tasks) (pending : task.status = .pending) :
      Step s { s with track := s.track.setStatus task.id .canceled }
  | release {lease : WorkspaceLease} (mem : lease ∈ s.track.leases)
      (active : lease.active = true) : Step s { s with track := s.track.releaseLease lease }
  | settle (producer : Text) : Step s { s with track := s.track.settleDelivery producer }
  /-- A failed gate runs again on the same attempt, once nobody else uses the checkout. -/
  | regate {now : Int} {task : Task} (mem : task ∈ s.track.tasks)
      (failed : task.status = .failed) (current : s.track.current task.key = some task.id)
      (free : checkoutOccupancy now s.track task.id = .free) :
      Step s { s with track := s.track.setStatus task.id .verifying }
  /-- A new task, or the next attempt of a failed one. -/
  | declare {task : Task} (fresh : ∀ other ∈ s.track.tasks, other.id ≠ task.id)
      (pending : task.status = .pending)
      (ended : ∀ other ∈ s.track.tasks, s.track.current task.key = some other.id →
        other.status = .failed) :
      Step s { s with track := { s.track with
        tasks := s.track.tasks ++ [task]
        current := Function.update s.track.current task.key (some task.id) } }
  /-- The plan changes a task that has not started, or drops it. -/
  | amend {task task' : Task} (mem : task ∈ s.track.tasks) (pending : task.status = .pending)
      (same : task'.id = task.id) (pending' : task'.status = .pending) :
      Step s { s with track := { s.track with
        tasks := s.track.tasks.map fun other => if other.id = task.id then task' else other } }
  | withdraw {task : Task} (mem : task ∈ s.track.tasks) (pending : task.status = .pending) :
      Step s { s with track := { s.track with
        tasks := s.track.tasks.filter fun other => other.id ≠ task.id } }
  | setOpen (isOpen : Bool) : Step s { s with track := { s.track with isOpen } }

/-- Any number of transactions. -/
def Reaches : System V → System V → Prop := Relation.ReflTransGen Step

/-! ## The invariant -/

/-- An attempt that was prepared: its row has left `pending`, is the current one while it is in
flight, and its worker operation has an output. -/
structure Entered (track : Track V) (id : Text) : Prop where
  row : ∃ task ∈ track.tasks, task.id = id ∧ task.status ≠ .pending ∧
    task.runsInTrackCheckout = true ∧
    (task.status.isInFlight = true → track.current task.key = some id) ∧
    ∃ op ∈ track.operations, task.kind.workerOperationKind = some op.kind ∧
      op.idempotencyKey = some id ∧ op.txOutput.isSome = true

/-- The keys of the tables, and that no operation is stuck. -/
structure Keyed (track : Track V) : Prop where
  tasks : (track.tasks.map Task.id).Nodup
  operations : (track.operations.map fun op => op.id).Nodup
  bindings : ∀ op ∈ track.operations, ∀ other ∈ track.operations, op.kind = other.kind →
    op.idempotencyKey ≠ none → op.idempotencyKey = other.idempotencyKey → op.id = other.id
  notStuck : ∀ op ∈ track.operations, op.phase ≠ .stuck

/-- An attempt inside the checkout beside another one only reads. -/
def Exclusive (s : System V) : Prop :=
  ∀ task ∈ s.track.tasks, ∀ other ∈ s.track.tasks, Inside s task.id → Inside s other.id →
    task.id ≠ other.id → task.access = .readOnly

structure Sound (s : System V) : Prop where
  keyed : Keyed s.track
  entered : ∀ id ∈ s.entered, Entered s.track id
  leases : ∀ lease ∈ s.track.leases, lease.active = true →
    ∃ op ∈ s.track.operations, lease.owner = some op.id ∧
      ∃ task ∈ s.track.tasks, task.id ∈ s.entered ∧ op.idempotencyKey = some task.id ∧
        task.access = lease.access
  deliveries : ∀ delivery ∈ s.track.deliveries, delivery.settled = false →
    delivery.producer ∈ s.entered
  exclusive : Exclusive s

/-! ## The occupancy covers who is inside -/

section Rows

omit [DecidableEq V]

variable {track : Track V} {s : System V} {id : Text}

section

variable (keyed : Keyed track)

include keyed

theorem Keyed.task_unique (mem : task ∈ track.tasks) (mem' : other ∈ track.tasks)
    (same : task.id = other.id) : task = other :=
  inj_on_of_nodup_map keyed.tasks mem mem' same

theorem Keyed.ne_pending (mem : task ∈ track.tasks) (pending : task.status = .pending)
    (mem' : other ∈ track.tasks) (started : other.status ≠ .pending) : other.id ≠ task.id :=
  fun same => started (keyed.task_unique mem' mem same ▸ pending)

theorem Keyed.operation_unique (mem : op ∈ track.operations) (mem' : other ∈ track.operations)
    (same : op.id = other.id) : op = other :=
  inj_on_of_nodup_map keyed.operations mem mem' same

theorem Keyed.leaseOperation (mem : op ∈ track.operations) (owner : lease.owner = some op.id) :
    track.leaseOperation lease = some op := by
  unfold Track.leaseOperation
  cases found : track.operations.find? fun op => lease.owner == some op.id with
  | none =>
    have := find?_eq_none.mp found op mem
    simp [owner] at this
  | some other =>
    have same : lease.owner = some other.id := by
      simpa using find?_some found
    have : op.id = other.id := Option.some.inj (owner.symm.trans same)
    rw [keyed.operation_unique mem (mem_of_find?_eq_some found) this]

theorem Keyed.leaseAttempt (mem : op ∈ track.operations) (owner : lease.owner = some op.id) :
    track.leaseAttempt lease = op.idempotencyKey := by
  rw [Track.leaseAttempt, keyed.leaseOperation mem owner]
  rfl

/-- A prepared attempt is never exempt as a yielded one. -/
theorem pendingCheckoutBlocker_entered (mem : op ∈ track.operations)
    (kind : task.kind.workerOperationKind = some op.kind)
    (binding : op.idempotencyKey = some task.id) (output : op.txOutput.isSome = true) :
    pendingCheckoutBlocker now track task = none := by
  have unprepared : track.unpreparedOperation op.kind task = none := by
    refine find?_eq_none.mpr fun other mem' found => ?_
    simp only [Bool.and_eq_true, beq_iff_eq, Option.isNone_iff_eq_none] at found
    obtain ⟨⟨⟨⟨⟨sameKind, sameKey⟩, -⟩, none⟩, -⟩, -⟩ := found
    have same : op.id = other.id :=
      keyed.bindings op mem other mem' sameKind.symm (by simp [binding])
        (binding.trans sameKey.symm)
    rw [keyed.operation_unique mem mem' same, none] at output
    cases output
  unfold pendingCheckoutBlocker
  split
  · rfl
  · simp [kind, unprepared]

end

/-- **The occupancy covers who is inside.**  Beside an attempt inside the checkout, the
occupancy admits only a reader, and only when that attempt reads too. -/
theorem occupancy_covers (sound : Sound s) {asked : TaskAccess} (mem : task ∈ s.track.tasks)
    (inside : Inside s task.id) (other : task.id ≠ id)
    (admitted : (checkoutOccupancy now s.track id).admits asked = true) :
    asked = .readOnly ∧ task.access = .readOnly := by
  have keyed := sound.keyed
  unfold checkoutOccupancy at admitted
  split at admitted
  · cases admitted
  rename_i settled
  obtain ⟨-, each⟩ := foldl_join_admits admitted
  obtain ⟨isEntered, flight | ⟨lease, leased, active, attempt⟩ | ⟨delivery, delivered, producer,
    unsettled⟩⟩ := inside
  · obtain ⟨row, mem', same, inFlight⟩ := flight
    obtain rfl := keyed.task_unique mem' mem same
    obtain ⟨row', mem'', same', -, checkout, current, op, opMem, kind, binding, output⟩ :=
      (sound.entered _ isEntered).row
    obtain rfl := keyed.task_unique mem'' mem same'
    have counted : row'.access ∈
        (s.track.occupyingTasks now id).map Task.access ++
          (s.track.occupyingLeases id).map WorkspaceLease.access := by
      refine mem_append_left _ (mem_map_of_mem ?_)
      simp [Track.occupyingTasks, Track.currentTasks, mem, current inFlight, other, inFlight,
        checkout, pendingCheckoutBlocker_entered keyed opMem kind binding output]
    exact (each _ counted).symm
  · obtain ⟨op, opMem, owner, row, mem', _, binding, access⟩ := sound.leases lease leased active
    have key : op.idempotencyKey = some task.id :=
      (keyed.leaseAttempt opMem owner).symm.trans attempt
    obtain rfl := keyed.task_unique mem' mem (Option.some.inj (binding.symm.trans key))
    have counted : row.access ∈
        (s.track.occupyingTasks now id).map Task.access ++
          (s.track.occupyingLeases id).map WorkspaceLease.access := by
      rw [access]
      refine mem_append_right _ (mem_map_of_mem ?_)
      simp [Track.occupyingLeases, leased, active, keyed.leaseOperation opMem owner, binding,
        other, keyed.notStuck op opMem]
    exact (each _ counted).symm
  · refine absurd (any_eq_true.mpr ⟨delivery, delivered, ?_⟩) settled
    simp [unsettled, producer, other]

/-! ## What a transaction does -/

/-- The same execution of the same task, only its status moved. -/
structure Continues (task' task : Task) : Prop where
  id : task'.id = task.id
  key : task'.key = task.key
  kind : task'.kind = task.kind
  spawn : task'.spawn = task.spawn
  access : task'.access = task.access

theorem Continues.refl (task : Task) : Continues task task := ⟨rfl, rfl, rfl, rfl, rfl⟩

theorem Continues.checkout (same : Continues task' task) :
    task'.runsInTrackCheckout = task.runsInTrackCheckout := by
  simp [Task.runsInTrackCheckout, same.kind, same.spawn]

/-- What every transaction keeps: rows that left `pending` stay and stay out of flight once
they left it, operations stay bound and keep their outputs, leases and deliveries come from
attempts inside.  The attempt `entering`, if any, may come inside; it was admitted. -/
structure Moves (s s' : System V) (entering : Option Text) : Prop where
  keyed : Keyed s'.track
  stays : ∀ id ∈ s.entered, id ∈ s'.entered
  entered : ∀ id ∈ s'.entered, id ∈ s.entered ∨ entering = some id ∧ Entered s'.track id
  tasks : ∀ task ∈ s.track.tasks, task.status ≠ .pending →
    ∃ task' ∈ s'.track.tasks, Continues task' task ∧ task'.status ≠ .pending ∧
      (task'.status.isInFlight = true → (task.status.isInFlight = true ∨ entering = some task.id) ∧
        (s.track.current task.key = some task.id → s'.track.current task.key = some task.id))
  operations : ∀ op ∈ s.track.operations, ∃ op' ∈ s'.track.operations, op'.id = op.id ∧
    op'.kind = op.kind ∧ op'.idempotencyKey = op.idempotencyKey ∧
    (op.txOutput.isSome = true → op'.txOutput.isSome = true)
  leases : ∀ lease' ∈ s'.track.leases, lease'.active = true →
    (∃ lease ∈ s.track.leases, lease.active = true ∧ lease.owner = lease'.owner ∧
      lease.access = lease'.access) ∨
    ∃ op ∈ s'.track.operations, lease'.owner = some op.id ∧
      ∃ task ∈ s'.track.tasks, entering = some task.id ∧ task.id ∈ s'.entered ∧
        op.idempotencyKey = some task.id ∧ task.access = lease'.access
  deliveries : ∀ delivery ∈ s'.track.deliveries, delivery.settled = false →
    delivery ∈ s.track.deliveries ∨
    ∃ lease ∈ s.track.leases, lease.active = true ∧
      s.track.leaseAttempt lease = some delivery.producer
  admitted : ∀ id, entering = some id → ∃ now, ∃ task ∈ s.track.tasks, task.id = id ∧
    task.status ≠ .pending ∧ s.track.current task.key = some id ∧
    (checkoutOccupancy now s.track id).admits task.access = true

variable {s' : System V}

section

variable (moves : Moves s s' entering)

include moves

/-- Nobody but the attempt admitted comes inside. -/
theorem Moves.inside (sound : Sound s) (inside : Inside s' id) :
    Inside s id ∨ entering = some id := by
  obtain ⟨isEntered, how⟩ := inside
  rcases moves.entered id isEntered with before | ⟨enters, -⟩
  swap
  · exact .inr enters
  rcases how with ⟨_, mem', same', inFlight⟩ | ⟨lease', leased, active, attempt⟩ |
    ⟨delivery, delivered, producer, unsettled⟩
  · obtain ⟨row, mem, same, started, -⟩ := (sound.entered id before).row
    obtain ⟨_, imageMem, continues, -, flight⟩ := moves.tasks row mem started
    obtain rfl := moves.keyed.task_unique imageMem mem' (continues.id.trans (same.trans same'.symm))
    rcases (flight inFlight).1 with live | enters
    · exact .inl ⟨before, .inl ⟨row, mem, same, live⟩⟩
    · exact .inr (same ▸ enters)
  · rcases moves.leases lease' leased active with
      ⟨lease, mem, live, owner, -⟩ | ⟨op, opMem, owner, row, -, enters, -, binding, -⟩
    · obtain ⟨op, opMem, owner', -⟩ := sound.leases lease mem live
      obtain ⟨_, opMem', sameId, -, sameKey, -⟩ := moves.operations op opMem
      have key : s'.track.leaseAttempt lease' = op.idempotencyKey := by
        rw [moves.keyed.leaseAttempt opMem' (owner.symm.trans (owner'.trans (by rw [sameId]))),
          sameKey]
      exact .inl ⟨before, .inr (.inl ⟨lease, mem, live,
        (sound.keyed.leaseAttempt opMem owner').trans (key.symm.trans attempt)⟩)⟩
    · have key : some row.id = some id :=
        binding.symm.trans ((moves.keyed.leaseAttempt opMem owner).symm.trans attempt)
      exact .inr (enters.trans key)
  · rcases moves.deliveries delivery delivered unsettled with mem | ⟨lease, mem, live, attempt'⟩
    · exact .inl ⟨before, .inr (.inr ⟨delivery, mem, producer, unsettled⟩)⟩
    · exact .inl ⟨before, .inr (.inl ⟨lease, mem, live, producer ▸ attempt'⟩)⟩

/-- A row that left `pending` is the row before with its status moved. -/
theorem Moves.row (mem : task ∈ s.track.tasks) (started : task.status ≠ .pending)
    (mem' : task' ∈ s'.track.tasks) (same : task.id = task'.id) : Continues task' task := by
  obtain ⟨_, imageMem, continues, -⟩ := moves.tasks task mem started
  obtain rfl := moves.keyed.task_unique imageMem mem' (continues.id.trans same)
  exact continues

/-- Whoever is inside has a row before the transaction, with the same access. -/
theorem Moves.access (sound : Sound s) (mem' : task' ∈ s'.track.tasks)
    (inside : Inside s' task'.id) :
    ∃ task ∈ s.track.tasks, task.id = task'.id ∧ task'.access = task.access := by
  rcases moves.inside sound inside with before | enters
  · obtain ⟨task, mem, same, started, -⟩ := (sound.entered _ before.1).row
    exact ⟨task, mem, same, (moves.row mem started mem' same).access⟩
  · obtain ⟨_, task, mem, same, started, -⟩ := moves.admitted _ enters
    exact ⟨task, mem, same, (moves.row mem started mem' same).access⟩

theorem Moves.exclusive (sound : Sound s) : Exclusive s' := by
  intro task' mem' other' otherMem' inside inside' ne
  obtain ⟨task, mem, same, access⟩ := moves.access sound mem' inside
  obtain ⟨other, otherMem, same', _⟩ := moves.access sound otherMem' inside'
  rw [access]
  have ne' : task.id ≠ other.id := by rw [same, same']; exact ne
  rw [← same] at inside
  rw [← same'] at inside'
  rcases moves.inside sound inside with before | enters <;>
    rcases moves.inside sound inside' with before' | enters'
  · exact sound.exclusive task mem other otherMem before before' ne'
  · obtain ⟨_, _, -, -, -, -, admitted⟩ := moves.admitted _ enters'
    exact (occupancy_covers sound mem before ne' admitted).2
  · obtain ⟨_, _, askingMem, asks, -, -, admitted⟩ := moves.admitted _ enters
    obtain rfl := sound.keyed.task_unique askingMem mem asks
    exact (occupancy_covers sound otherMem before' ne'.symm admitted).1
  · exact absurd (Option.some.inj (enters.symm.trans enters')) ne'

/-- **Step lemma.**  A transaction keeps the invariant. -/
theorem Moves.sound (sound : Sound s) : Sound s' where
  keyed := moves.keyed
  entered id isEntered := by
    rcases moves.entered id isEntered with before | ⟨-, now⟩
    swap
    · exact now
    obtain ⟨task, mem, same, started, checkout, current, op, opMem, kind, binding, output⟩ :=
      (sound.entered id before).row
    obtain ⟨task', mem', continues, started', flight⟩ := moves.tasks task mem started
    obtain ⟨op', opMem', -, sameKind, sameKey, keeps⟩ := moves.operations op opMem
    refine ⟨task', mem', continues.id.trans same, started', continues.checkout.trans checkout,
      fun inFlight => ?_, op', opMem', ?_, sameKey.trans binding, keeps output⟩
    · obtain ⟨live | enters, stays⟩ := flight inFlight
      · rw [continues.key, ← same]
        exact stays (same ▸ current live)
      · obtain ⟨_, _, askingMem, asks, -, isCurrent, -⟩ := moves.admitted _ enters
        obtain rfl := sound.keyed.task_unique askingMem mem asks
        rw [continues.key, ← same]
        exact stays isCurrent
    · rw [continues.kind, kind, sameKind]
  leases lease' leased active := by
    rcases moves.leases lease' leased active with ⟨lease, mem, live, owner, access⟩ |
      ⟨op, opMem, owner, row, rowMem, -, isEntered, binding, access⟩
    · obtain ⟨op, opMem, owner', task, taskMem, isEntered, binding, access'⟩ :=
        sound.leases lease mem live
      obtain ⟨op', opMem', sameId, -, sameKey, -⟩ := moves.operations op opMem
      obtain ⟨row, rowMem, same, started, -⟩ := (sound.entered _ isEntered).row
      obtain rfl := sound.keyed.task_unique rowMem taskMem same
      obtain ⟨row', rowMem', continues, -⟩ := moves.tasks row rowMem started
      refine ⟨op', opMem', owner.symm.trans (owner'.trans (by rw [sameId])), row', rowMem',
        continues.id ▸ moves.stays _ isEntered, ?_, ?_⟩
      · rw [sameKey, binding, continues.id]
      · rw [continues.access, access', access]
    · exact ⟨op, opMem, owner, row, rowMem, isEntered, binding, access⟩
  deliveries delivery delivered unsettled := by
    rcases moves.deliveries delivery delivered unsettled with mem | ⟨lease, mem, live, attempt⟩
    · exact moves.stays _ (sound.deliveries delivery mem unsettled)
    · obtain ⟨_, opMem, owner, task, -, isEntered, binding, -⟩ := sound.leases lease mem live
      have same : some task.id = some delivery.producer :=
        binding.symm.trans ((sound.keyed.leaseAttempt opMem owner).symm.trans attempt)
      exact Option.some.inj same ▸ moves.stays _ isEntered
  exclusive := moves.exclusive sound

end

/-! ## Every step is such a transaction -/

section Keys

variable {rows : List α} {key : α → β} (distinct : (rows.map key).Nodup)

include distinct

theorem nodup_map_concat (fresh : ∀ other ∈ rows, key other ≠ key row) :
    ((rows ++ [row]).map key).Nodup := by
  simp only [map_append, map_singleton, nodup_append', disjoint_singleton, mem_map]
  exact ⟨distinct, nodup_singleton _, fun ⟨other, mem, same⟩ => fresh other mem same⟩

/-- A rewrite that keeps the keys. -/
theorem nodup_map_rewrite {p : α → Prop} [DecidablePred p] {rewrite : α → α}
    (same : ∀ row, p row → key (rewrite row) = key row) :
    ((rows.map fun row => if p row then rewrite row else row).map key).Nodup := by
  rw [map_map, map_congr_left fun row _ => show _ = key row from ?_]
  · exact distinct
  · simp only [Function.comp_apply]
    split
    · exact same row ‹_›
    · rfl

end Keys

/-- The tables after one operation was written. -/
theorem Keyed.setOperation (keyed : Keyed track) (mem : op ∈ track.operations)
    (inputs : op'.toInputs = op.toInputs) (notStuck : op'.phase ≠ .stuck) :
    Keyed (track.setOperation op') := by
  have written : ∀ row ∈ (track.setOperation op').operations, ∃ before ∈ track.operations,
      row.toInputs = before.toInputs ∧ row.phase ≠ .stuck := by
    intro row rowMem
    obtain ⟨before, beforeMem, rfl⟩ := mem_map.mp rowMem
    by_cases same : before.id = op'.id
    · rw [if_pos same]
      exact ⟨op, mem, inputs, notStuck⟩
    · rw [if_neg same]
      exact ⟨before, beforeMem, rfl, keyed.notStuck before beforeMem⟩
  refine ⟨keyed.tasks, ?_, ?_, fun row rowMem => (written row rowMem).choose_spec.2.2⟩
  · exact nodup_map_rewrite keyed.operations fun _ same => Eq.symm same
  · intro row rowMem other otherMem kind binding same
    obtain ⟨before, beforeMem, rowInputs, -⟩ := written row rowMem
    obtain ⟨before', beforeMem', otherInputs, -⟩ := written other otherMem
    rw [rowInputs, otherInputs] at kind same ⊢
    rw [rowInputs] at binding
    exact keyed.bindings before beforeMem before' beforeMem' kind binding same

theorem Track.mem_setOperation (mem : row ∈ track.operations) (unique : row.id = op.id → row = op)
    (inputs : op'.toInputs = op.toInputs)
    (output : op.txOutput.isSome = true → op'.txOutput.isSome = true) :
    ∃ row' ∈ (track.setOperation op').operations, row'.id = row.id ∧ row'.kind = row.kind ∧
      row'.idempotencyKey = row.idempotencyKey ∧
      (row.txOutput.isSome = true → row'.txOutput.isSome = true) := by
  refine ⟨_, mem_map_of_mem mem, ?_⟩
  by_cases same : row.id = op'.id
  · obtain rfl := unique (by rw [same, inputs])
    rw [if_pos same, inputs]
    exact ⟨rfl, rfl, rfl, output⟩
  · rw [if_neg same]
    exact ⟨rfl, rfl, rfl, fun some => some⟩

section

variable (keyed : Keyed s.track)

include keyed

theorem Moves.still : Moves s s none where
  keyed := keyed
  stays _ mem := mem
  entered _ mem := .inl mem
  tasks task mem started := ⟨task, mem, .refl task, started, fun live => ⟨.inl live, id⟩⟩
  operations op mem := ⟨op, mem, rfl, rfl, rfl, fun some => some⟩
  leases lease mem active := .inl ⟨lease, mem, active, rfl, rfl⟩
  deliveries _ mem _ := .inl mem
  admitted := nofun

/-- A transaction that writes the tasks only. -/
theorem Moves.ofTasks {current : Text → Option Text} (ids : (tasks.map Task.id).Nodup)
    (kept : ∀ task ∈ s.track.tasks, task.status ≠ .pending →
      ∃ task' ∈ tasks, Continues task' task ∧ task'.status ≠ .pending ∧
        (task'.status.isInFlight = true →
          (task.status.isInFlight = true ∨ entering = some task.id) ∧
          (s.track.current task.key = some task.id → current task.key = some task.id)))
    (admitted : ∀ id, entering = some id → ∃ now, ∃ task ∈ s.track.tasks, task.id = id ∧
      task.status ≠ .pending ∧ s.track.current task.key = some id ∧
      (checkoutOccupancy now s.track id).admits task.access = true) :
    Moves s { s with track := { s.track with tasks, current } } entering where
  keyed := ⟨ids, keyed.operations, keyed.bindings, keyed.notStuck⟩
  stays _ mem := mem
  entered _ mem := .inl mem
  tasks := kept
  operations op mem := ⟨op, mem, rfl, rfl, rfl, fun some => some⟩
  leases lease mem active := .inl ⟨lease, mem, active, rfl, rfl⟩
  deliveries _ mem _ := .inl mem
  admitted := admitted

/-- The status of one task moves. -/
theorem Moves.ofStatus (mem : task ∈ s.track.tasks) (moved : status ≠ .pending)
    (flight : task.status ≠ .pending → status.isInFlight = true →
      task.status.isInFlight = true ∨ entering = some task.id)
    (admitted : ∀ id, entering = some id → ∃ now, ∃ task ∈ s.track.tasks, task.id = id ∧
      task.status ≠ .pending ∧ s.track.current task.key = some id ∧
      (checkoutOccupancy now s.track id).admits task.access = true) :
    Moves s { s with track := s.track.setStatus task.id status } entering := by
  refine .ofTasks keyed ?_ (fun row rowMem started => ?_) admitted
  · exact nodup_map_rewrite keyed.tasks fun _ _ => rfl
  · refine ⟨_, mem_map_of_mem rowMem, ?_⟩
    by_cases same : row.id = task.id
    · obtain rfl := keyed.task_unique rowMem mem same
      simp only [↓reduceIte]
      exact ⟨⟨rfl, rfl, rfl, rfl, rfl⟩, moved, fun live => ⟨flight started live, id⟩⟩
    · simp only [same, ↓reduceIte]
      exact ⟨.refl row, started, fun live => ⟨.inl live, id⟩⟩

/-- A transaction that leaves tasks and operations alone, releases leases and settles or adds
deliveries. -/
theorem Moves.ofLeases {leases : List WorkspaceLease} {deliveries : List Delivery}
    (fewer : ∀ lease' ∈ leases, lease'.active = true →
      ∃ lease ∈ s.track.leases, lease.active = true ∧ lease.owner = lease'.owner ∧
        lease.access = lease'.access)
    (delivered : ∀ delivery ∈ deliveries, delivery.settled = false → delivery ∈ s.track.deliveries ∨
      ∃ lease ∈ s.track.leases, lease.active = true ∧
        s.track.leaseAttempt lease = some delivery.producer) :
    Moves s { s with track := { s.track with leases, deliveries } } none :=
  { Moves.still keyed with
    keyed := ⟨keyed.tasks, keyed.operations, keyed.bindings, keyed.notStuck⟩
    entered := fun _ mem => .inl mem
    leases := fun lease mem active => .inl (fewer lease mem active)
    deliveries := delivered }

theorem Moves.release (mem : lease ∈ s.track.leases) (active : lease.active = true) :
    Moves s { s with track := s.track.releaseLease lease } none := by
  refine .ofLeases keyed (fun lease' mem' active' => ?_) (fun delivery mem' unsettled => ?_)
  · obtain ⟨other, otherMem, rfl⟩ := mem_map.mp mem'
    by_cases same : other.id = lease.id
    · simp [same, WorkspaceLease.active] at active'
    · rw [if_neg same] at active' ⊢
      exact ⟨other, otherMem, active', rfl, rfl⟩
  · cases attempt : s.track.leaseAttempt lease with
    | none => exact .inl (by simpa [attempt] using mem')
    | some =>
      simp only [attempt] at mem'
      split at mem'
      · rcases mem_append.mp mem' with before | new
        · exact .inl before
        · rw [mem_singleton.mp new]
          exact .inr ⟨lease, mem, active, attempt⟩
      · exact .inl mem'

theorem Moves.settle (producer : Text) :
    Moves s { s with track := s.track.settleDelivery producer } none := by
  refine .ofLeases keyed (fun lease mem active => ⟨lease, mem, active, rfl, rfl⟩)
    (fun delivery mem unsettled => ?_)
  obtain ⟨other, otherMem, rfl⟩ := mem_map.mp mem
  by_cases same : other.producer = producer
  · simp [same] at unsettled
  · rw [if_neg same]
    exact .inl otherMem

theorem Moves.operate (mem : op ∈ s.track.operations)
    (inputs : op'.toInputs = op.toInputs)
    (output : op.txOutput.isSome = true → op'.txOutput.isSome = true)
    (notStuck : op'.phase ≠ .stuck) : Moves s { s with track := s.track.setOperation op' } none :=
  { Moves.still keyed with
    keyed := keyed.setOperation mem inputs notStuck
    entered := fun _ mem => .inl mem
    leases := fun lease mem active => .inl ⟨lease, mem, active, rfl, rfl⟩
    operations := fun _ rowMem =>
      Track.mem_setOperation rowMem (keyed.operation_unique rowMem mem) inputs output }

theorem Moves.submit (fresh : ∀ op ∈ s.track.operations, op.id ≠ inputs.id)
    (unique : ∀ op ∈ s.track.operations, op.kind = inputs.kind → inputs.idempotencyKey ≠ none →
      op.idempotencyKey ≠ inputs.idempotencyKey) :
    Moves s { s with track := { s.track with
      operations := s.track.operations ++ [insertPendingRow inputs phaseDetail] } } none := by
  refine { Moves.still keyed with
    keyed := ⟨keyed.tasks, nodup_map_concat keyed.operations fresh, ?_, ?_⟩
    entered := fun _ mem => .inl mem
    leases := fun lease mem active => .inl ⟨lease, mem, active, rfl, rfl⟩
    operations := fun op mem => ⟨op, mem_append_left _ mem, rfl, rfl, rfl, fun some => some⟩ }
  · intro op mem other mem' kind binding same
    rcases mem_append.mp mem with before | new <;> rcases mem_append.mp mem' with before' | new'
    · exact keyed.bindings op before other before' kind binding same
    · rw [mem_singleton.mp new'] at kind same
      exact absurd same (unique op before kind (same ▸ binding))
    · rw [mem_singleton.mp new] at kind same binding
      exact absurd same.symm (unique other before' kind.symm binding)
    · rw [mem_singleton.mp new, mem_singleton.mp new']
  · intro op mem
    rcases mem_append.mp mem with before | new
    · exact keyed.notStuck op before
    · rw [mem_singleton.mp new]
      nofun

theorem Moves.declare (fresh : ∀ other ∈ s.track.tasks, other.id ≠ task.id)
    (ended : ∀ other ∈ s.track.tasks, s.track.current task.key = some other.id →
      other.status = .failed) :
    Moves s { s with track := { s.track with
      tasks := s.track.tasks ++ [task]
      current := Function.update s.track.current task.key (some task.id) } } none := by
  refine .ofTasks keyed (nodup_map_concat keyed.tasks fresh) (fun row mem started => ?_) nofun
  refine ⟨row, mem_append_left _ mem, .refl row, started, fun live => ⟨.inl live, ?_⟩⟩
  intro current
  by_cases same : row.key = task.key
  · -- The execution that is replaced has failed; it is not in flight.
    rw [ended row mem (same ▸ current)] at live
    cases live
  · rw [Function.update_of_ne same]
    exact current

theorem Moves.amend (mem : task ∈ s.track.tasks)
    (pending : task.status = .pending) (same : task'.id = task.id) :
    Moves s { s with track := { s.track with
      tasks := s.track.tasks.map fun other =>
        if other.id = task.id then task' else other } } none := by
  refine .ofTasks keyed (nodup_map_rewrite keyed.tasks fun _ found => same.trans found.symm)
    (fun row rowMem started => ⟨_, mem_map_of_mem rowMem, ?_⟩) nofun
  rw [if_neg (keyed.ne_pending mem pending rowMem started)]
  exact ⟨.refl row, started, fun live => ⟨.inl live, id⟩⟩

theorem Moves.withdraw (mem : task ∈ s.track.tasks)
    (pending : task.status = .pending) :
    Moves s { s with track := { s.track with
      tasks := s.track.tasks.filter fun other => other.id ≠ task.id } } none := by
  refine .ofTasks keyed (keyed.tasks.sublist (List.Sublist.map _ filter_sublist))
    (fun row rowMem started => ?_) nofun
  have ne := keyed.ne_pending mem pending rowMem started
  exact ⟨row, mem_filter.mpr ⟨rowMem, by simpa using ne⟩, .refl row, started,
    fun live => ⟨.inl live, id⟩⟩

end

/-! ### The claim and the preparation -/

/-- What a claim found: an admitted pending task that is its key's current execution. -/
theorem claimTask_admitted (h : claimTask now fenced track id = some claimed) :
    claimed = track.setStatus id .dispatched ∧
      ∃ task, (task, none) ∈ checkoutAdmission track.tasksInSchedulerOrder
        (checkoutOccupancy now track id) ∧ task.id = id := by
  unfold claimTask at h
  split at h
  · cases h
  split at h
  swap
  · cases h
  rename_i admitted
  simp only [any_eq_true, Bool.and_eq_true, beq_iff_eq, Option.isNone_iff_eq_none,
    Prod.exists] at admitted
  obtain ⟨task, _, mem, same, rfl⟩ := admitted
  unfold taskClaimPending at h
  split at h
  · exact ⟨(Option.some.inj h).symm, task, mem, same⟩
  · cases h

theorem mem_admitFrom_cons (h : entry ∈ admitFrom occupancy writerWaiting (first :: rest)) :
    entry.1 = first ∨ ∃ waiting, entry ∈ admitFrom occupancy waiting rest := by
  unfold admitFrom at h
  split at h <;> [skip; split at h <;> [skip; split at h]] <;>
    (rcases mem_cons.mp h with same | later
     · exact .inl (Prod.ext_iff.mp same).1
     · exact .inr ⟨_, later⟩)

theorem mem_admitFrom (h : (task, wait) ∈ admitFrom occupancy writerWaiting tasks) :
    task ∈ tasks := by
  induction tasks generalizing writerWaiting with
  | nil => cases h
  | cons _ _ ih =>
    rcases mem_admitFrom_cons h with rfl | ⟨_, later⟩
    · exact mem_cons_self
    · exact mem_cons_of_mem _ (ih later)

theorem mem_tasksInSchedulerOrder :
    task ∈ track.tasksInSchedulerOrder ↔
      task ∈ track.tasks ∧ track.current task.key = some task.id := by
  simp [Track.tasksInSchedulerOrder, Track.currentTasks, mem_insertionSort]

/-- An admitted task is pending, current, and has its dependencies done. -/
theorem admission_ready
    (h : (task, wait) ∈ checkoutAdmission track.tasksInSchedulerOrder occupancy) :
    task ∈ track.tasks ∧ track.current task.key = some task.id ∧ task.status = .pending ∧
      ∀ key ∈ task.dependsOn, ∃ other ∈ track.currentTasks, other.key = key ∧
        other.status = .done := by
  obtain ⟨ordered, ready⟩ := mem_filter.mp (mem_admitFrom h)
  obtain ⟨mem, current⟩ := mem_tasksInSchedulerOrder.mp ordered
  simp only [isReady, Bool.and_eq_true, beq_iff_eq, all_eq_true, decide_eq_true_eq] at ready
  refine ⟨mem, current, ready.1, fun key depends => ?_⟩
  obtain ⟨other, otherMem, sameKey⟩ := mem_map.mp (ready.2 key depends)
  obtain ⟨otherOrdered, done⟩ := mem_filter.mp otherMem
  obtain ⟨otherMem, otherCurrent⟩ := mem_tasksInSchedulerOrder.mp otherOrdered
  exact ⟨other, mem_filter.mpr ⟨otherMem, by simpa using otherCurrent⟩, sameKey,
    by simpa using done⟩

theorem Moves.claim (keyed : Keyed s.track) (h : claimTask now fenced s.track id = some claimed) :
    Moves s { s with track := claimed } none := by
  obtain ⟨rfl, _, admitted, rfl⟩ := claimTask_admitted h
  obtain ⟨mem, -, pending, -⟩ := admission_ready admitted
  exact .ofStatus keyed mem nofun (absurd pending) nofun

theorem taskGet_eq_some (h : track.taskGet id = some task) : task ∈ track.tasks ∧ task.id = id :=
  ⟨mem_of_find?_eq_some h, by simpa using find?_some h⟩

/-- What the check of a preparation found. -/
theorem requireOperationCheckout_ok (h : requireOperationCheckout now track op = .ok task) :
    task ∈ track.tasks ∧ op.idempotencyKey = some task.id ∧
      task.kind.workerOperationKind = some op.kind ∧ task.runsInTrackCheckout = true ∧
      track.current task.key = some task.id ∧ task.status.isInFlight = true ∧
      (checkoutOccupancy now track task.id).admits task.access = true := by
  unfold requireOperationCheckout at h
  cases binding : op.idempotencyKey with
  | none => simp [binding] at h
  | some id =>
    simp only [binding] at h
    cases found : track.taskGet id with
    | none => simp [found] at h
    | some row =>
      obtain ⟨mem, rfl⟩ := taskGet_eq_some found
      simp only [found] at h
      split at h
      · cases h
      rename_i matching
      push Not at matching
      obtain ⟨kind, checkout, -⟩ := matching
      simp only [ne_eq, Bool.not_eq_false] at checkout
      unfold requireCheckoutStartable requireAttemptStartable at h
      simp only [found] at h
      cases current : track.current row.key with
      | none => simp [current] at h
      | some =>
        simp only [current] at h
        split at h
        · cases h
        rename_i failed
        split at failed
        · cases failed
        rename_i startable
        cases failed
        push Not at startable
        simp only [checkout, Bool.not_true, Bool.false_eq_true, ↓reduceIte] at h
        split at h
        · cases h
        split at h
        · cases h
        rename_i admitted
        cases h
        exact ⟨mem, rfl, kind, checkout, startable.1 ▸ current, by simpa using startable.2,
          by simpa using admitted⟩

end Rows

variable {s : System V}

theorem prepare_spec (h : prepare now track op output lease = some (task, track')) :
    requireOperationCheckout now track op = .ok task ∧
      ∃ row ∈ track.operations, row.toInputs = op.toInputs ∧
      ∃ row' : Operation V, row'.toInputs = row.toInputs ∧ row'.txOutput.isSome = true ∧
        row'.phase = .txCommitted ∧
        track' = { track.setOperation row' with
          leases := track.leases ++ [⟨lease, some op.id, task.access, .held⟩] } := by
  unfold prepare at h
  cases found : track.operations.find? fun row => row.id == op.id with
  | none => simp [found] at h
  | some row =>
    simp only [found, Option.bind_eq_bind, Option.bind_some] at h
    split at h
    · cases h
    split at h
    swap
    · cases h
    rename_i claim checked written
    cases h
    obtain ⟨_, live⟩ := hasLiveClaim_true claim
    obtain ⟨-, -, wrote⟩ := writePhaseAndTxOutput_applied written
    exact ⟨checked, row, mem_of_find?_eq_some found, live.inputs, _, by rw [wrote],
      by rw [wrote]; rfl, by rw [wrote]; rfl, rfl⟩

/-- A preparation admits one attempt, with its lease. -/
theorem Moves.prepare (keyed : Keyed s.track)
    (h : Checkout.prepare now s.track op output lease = some (task, track)) :
    Moves s ⟨track, task.id :: s.entered⟩ (some task.id) := by
  obtain ⟨checked, row, rowMem, inputs, row', inputs', output', phase, rfl⟩ := prepare_spec h
  obtain ⟨mem, binding, kind, checkout, current, live, admitted⟩ :=
    requireOperationCheckout_ok checked
  have started : task.status ≠ .pending := by
    intro pending
    rw [pending] at live
    cases live
  have written : row' ∈ (s.track.setOperation row').operations := by
    have image := mem_map_of_mem (f := fun other : Operation V =>
      if other.id = row'.id then row' else other) rowMem
    rwa [if_pos (by rw [inputs'])] at image
  have sameInputs : row'.toInputs = op.toInputs := inputs'.trans inputs
  refine
    { keyed := ?_
      stays := fun id isEntered => mem_cons_of_mem _ isEntered
      entered := fun id isEntered => ?_
      tasks := fun row mem started => ⟨row, mem, .refl row, started, fun live => ⟨.inl live, id⟩⟩
      operations := fun other otherMem => Track.mem_setOperation otherMem
        (keyed.operation_unique otherMem rowMem) inputs' (fun _ => output')
      leases := fun lease' leased active => ?_
      deliveries := fun delivery mem _ => .inl mem
      admitted := fun id enters => ?_ }
  · have := keyed.setOperation rowMem inputs' (by rw [phase]; nofun)
    exact ⟨this.tasks, this.operations, this.bindings, this.notStuck⟩
  · rcases mem_cons.mp isEntered with rfl | before
    · refine .inr ⟨rfl, task, mem, rfl, started, checkout, fun _ => current, row', written, ?_,
        ?_, output'⟩
      · rw [kind, sameInputs]
      · rw [sameInputs, binding]
    · exact .inl before
  · rcases mem_append.mp leased with before | new
    · exact .inl ⟨lease', before, active, rfl, rfl⟩
    · rw [mem_singleton.mp new]
      refine .inr ⟨row', written, by rw [sameInputs], task, mem, rfl, mem_cons_self, ?_, rfl⟩
      rw [sameInputs, binding]
  · cases enters
    exact ⟨now, task, mem, rfl, started, current, admitted⟩

/-- Every step is such a transaction. -/
theorem Step.moves (step : Step s s') (sound : Sound s) : ∃ entering, Moves s s' entering := by
  have keyed := sound.keyed
  cases step with
  | claim claimed => exact ⟨none, .claim keyed claimed⟩
  | submit fresh unique => exact ⟨none, .submit keyed fresh unique⟩
  | operate mem done notStuck =>
    have written := perform_written done
    exact ⟨none, .operate keyed mem written.inputs written.output notStuck⟩
  | prepare prepared => exact ⟨_, .prepare keyed prepared⟩
  | report mem live moved => exact ⟨none, .ofStatus keyed mem moved (fun _ _ => .inl live) nofun⟩
  | cancelPending mem pending =>
    exact ⟨none, .ofStatus keyed mem nofun (absurd pending) nofun⟩
  | release mem active => exact ⟨none, .release keyed mem active⟩
  | settle producer => exact ⟨none, .settle keyed producer⟩
  | @regate now task mem failed current free =>
    refine ⟨some task.id, .ofStatus keyed mem nofun (fun _ _ => .inr rfl) ?_⟩
    rintro _ ⟨⟩
    refine ⟨now, task, mem, rfl, by rw [failed]; nofun, current, ?_⟩
    rw [free]
    rfl
  | declare fresh _ ended => exact ⟨none, .declare keyed fresh ended⟩
  | amend mem pending same => exact ⟨none, .amend keyed mem pending same⟩
  | withdraw mem pending => exact ⟨none, .withdraw keyed mem pending⟩
  | setOpen =>
    exact ⟨none, { Moves.still keyed with
      keyed := ⟨keyed.tasks, keyed.operations, keyed.bindings, keyed.notStuck⟩
      entered := fun _ mem => .inl mem
      leases := fun lease mem active => .inl ⟨lease, mem, active, rfl, rfl⟩ }⟩

/-- **Run lemma.** -/
theorem Sound.run (sound : Sound s) (run : Reaches s s') : Sound s' := by
  induction run with
  | refl => exact sound
  | tail _ step ih =>
    obtain ⟨_, moves⟩ := step.moves ih
    exact moves.sound ih

/-! ## No reader overtakes a waiting writer -/

/-- Behind a waiting writer no read-only task of the checkout is admitted. -/
theorem admitFrom_writerWaiting (checkout : reader.runsInTrackCheckout = true)
    (reads : reader.access = .readOnly) : (reader, none) ∉ admitFrom occupancy true tasks := by
  induction tasks with
  | nil => exact not_mem_nil
  | cons _ _ ih =>
    intro mem
    unfold admitFrom at mem
    split at mem
    · rename_i elsewhere
      rcases mem_cons.mp mem with same | later
      · cases same
        simp [checkout] at elsewhere
      · exact ih later
    split at mem
    · rcases mem_cons.mp mem with same | later
      · cases same
      · exact ih later
    rename_i writes
    split at mem
    · rcases mem_cons.mp mem with same | later
      · cases same
        simp [reads] at writes
      · exact ih later
    · rcases mem_cons.mp mem with same | later
      · cases same
      · exact ih later

/-- A reader is admitted after a writer only when the occupancy admits the writer. -/
theorem admitFrom_overtakes (distinct : tasks.Nodup) (order : List.Sublist [writer, reader] tasks)
    (writerCheckout : writer.runsInTrackCheckout = true) (writes : writer.access = .readWrite)
    (checkout : reader.runsInTrackCheckout = true) (reads : reader.access = .readOnly)
    (admitted : (reader, none) ∈ admitFrom occupancy writerWaiting tasks) :
    occupancy.admits .readWrite = true := by
  induction tasks generalizing writerWaiting with
  | nil => cases order
  | cons first _ ih =>
    obtain ⟨notFirst, distinct⟩ := nodup_cons.mp distinct
    cases order with
    | cons _ order =>
      -- Both are behind the first task, whatever became of it.
      have ne : reader ≠ first := by
        rintro rfl
        exact notFirst (order.subset (by simp))
      obtain ⟨_, later⟩ := (mem_admitFrom_cons admitted).resolve_left ne
      exact ih distinct order later
    | cons_cons =>
      by_contra refused
      have ne : reader ≠ writer := by
        rintro rfl
        cases reads.symm.trans writes
      unfold admitFrom at admitted
      simp only [writerCheckout, Bool.not_true, Bool.false_eq_true, ↓reduceIte, writes,
        refused] at admitted
      rcases mem_cons.mp admitted with same | later
      · exact absurd (Prod.ext_iff.mp same).1 ne
      · exact admitFrom_writerWaiting checkout reads (by simpa using later)

/-- In a sorted list a task of lower rank comes first. -/
theorem sublist_of_rank (sorted : tasks.Pairwise fun a b => a.rank ≤ b.rank) (mem : first ∈ tasks)
    (mem' : second ∈ tasks) (before : first.rank < second.rank) :
    List.Sublist [first, second] tasks := by
  induction tasks with
  | nil => cases mem
  | cons _ _ ih =>
    obtain ⟨least, sorted⟩ := pairwise_cons.mp sorted
    rcases mem_cons.mp mem with rfl | inRest
    · rcases mem_cons.mp mem' with rfl | inRest'
      · exact absurd before (lt_irrefl _)
      · exact (singleton_sublist.mpr inRest').cons_cons _
    · rcases mem_cons.mp mem' with rfl | inRest'
      · exact absurd (least first inRest) (not_le_of_gt before)
      · exact (ih sorted inRest inRest').cons _

section Order

omit [DecidableEq V]

theorem Sound.not_entered (sound : Sound s) (mem : task ∈ s.track.tasks)
    (pending : task.status = .pending) : task.id ∉ s.entered := by
  intro isEntered
  obtain ⟨_, rowMem, same, started, -⟩ := (sound.entered _ isEntered).row
  exact sound.keyed.ne_pending mem pending rowMem started same

/-- The occupancy does not count a pending task: it is the same apart from any of them. -/
theorem Sound.occupancy_pending (sound : Sound s) (mem : task ∈ s.track.tasks)
    (pending : task.status = .pending) (otherMem : other ∈ s.track.tasks)
    (otherPending : other.status = .pending) :
    checkoutOccupancy now s.track task.id = checkoutOccupancy now s.track other.id := by
  have ne : ∀ row ∈ s.track.tasks, row.status = .pending → ∀ live ∈ s.track.currentTasks,
      live.status.isInFlight = true → live.id ≠ row.id := by
    intro row rowMem rowPending live liveMem inFlight same
    rw [sound.keyed.task_unique (mem_filter.mp liveMem).1 rowMem same, rowPending] at inFlight
    cases inFlight
  have tasks : s.track.occupyingTasks now task.id = s.track.occupyingTasks now other.id := by
    refine filter_congr fun live liveMem => ?_
    cases inFlight : live.status.isInFlight with
    | false => simp
    | true =>
      simp [bne_iff_ne.mpr (ne task mem pending live liveMem inFlight),
        bne_iff_ne.mpr (ne other otherMem otherPending live liveMem inFlight)]
  have leases : s.track.occupyingLeases task.id = s.track.occupyingLeases other.id := by
    refine filter_congr fun lease leased => ?_
    cases active : lease.active with
    | false => simp
    | true =>
      obtain ⟨_, opMem, owner, row, -, isEntered, binding, -⟩ := sound.leases lease leased active
      have apart : ∀ row' ∈ s.track.tasks, row'.status = .pending →
          (some row.id != some row'.id) = true :=
        fun row' rowMem rowPending => bne_iff_ne.mpr fun same =>
          sound.not_entered rowMem rowPending (Option.some.inj same ▸ isEntered)
      simp [sound.keyed.leaseOperation opMem owner, binding, apart task mem pending,
        apart other otherMem otherPending]
  have deliveries : (s.track.deliveries.any fun delivery =>
        !delivery.settled && delivery.producer != task.id) =
      s.track.deliveries.any fun delivery =>
        !delivery.settled && delivery.producer != other.id := by
    rw [Bool.eq_iff_iff, any_eq_true, any_eq_true]
    refine exists_congr fun delivery => and_congr_right fun delivered => ?_
    cases unsettled : delivery.settled with
    | true => simp
    | false =>
      have isEntered := sound.deliveries delivery delivered unsettled
      have apart : ∀ row ∈ s.track.tasks, row.status = .pending → delivery.producer ≠ row.id :=
        fun row rowMem rowPending same => sound.not_entered rowMem rowPending (same ▸ isEntered)
      simp [apart task mem pending, apart other otherMem otherPending]
  simp only [checkoutOccupancy, tasks, leases, deliveries]

/-- An admitted reader of the checkout overtakes no writer that the occupancy refuses. -/
theorem admission_overtakes (keyed : Keyed track)
    (admitted : (task, none) ∈ checkoutAdmission track.tasksInSchedulerOrder
      (checkoutOccupancy now track task.id)) (checkout : task.runsInTrackCheckout = true)
    (reads : task.access = .readOnly) (ready : writer ∈ track.tasksInSchedulerOrder.filter
      (isReady track.tasksInSchedulerOrder)) (writerCheckout : writer.runsInTrackCheckout = true)
    (writes : writer.access = .readWrite) (before : writer.rank < task.rank) :
    (checkoutOccupancy now track task.id).admits .readWrite = true := by
  have sorted : track.tasksInSchedulerOrder.Pairwise fun a b => a.rank ≤ b.rank :=
    pairwise_insertionSort _ _
  have distinct : track.tasksInSchedulerOrder.Nodup :=
    (perm_insertionSort _ _).nodup_iff.mpr ((keyed.tasks.of_map _).filter _)
  exact admitFrom_overtakes (distinct.filter _)
    (sublist_of_rank (sorted.filter _) ready (mem_admitFrom admitted) before)
    writerCheckout writes checkout reads admitted

end Order

/-! ## Runs from a free checkout -/

/-- A checkout nobody uses: no task in flight, no active lease, no delivery to settle. -/
structure Free (s : System V) : Prop where
  keyed : Keyed s.track
  entered : ∀ id ∈ s.entered, Entered s.track id
  tasks : ∀ task ∈ s.track.tasks, task.status.isInFlight = false
  leases : ∀ lease ∈ s.track.leases, lease.active = false
  deliveries : ∀ delivery ∈ s.track.deliveries, delivery.settled = true

omit [DecidableEq V] in
theorem Free.sound (free : Free s) : Sound s where
  keyed := free.keyed
  entered := free.entered
  leases lease mem active := by
    cases (free.leases lease mem).symm.trans active
  deliveries delivery mem unsettled := by
    cases (free.deliveries delivery mem).symm.trans unsettled
  exclusive task _ _ _ inside := by
    obtain ⟨-, ⟨row, mem, -, live⟩ | ⟨lease, mem, active, -⟩ | ⟨delivery, mem, -, unsettled⟩⟩ :=
      inside
    · cases (free.tasks row mem).symm.trans live
    · cases (free.leases lease mem).symm.trans active
    · cases (free.deliveries delivery mem).symm.trans unsettled

/-- The dependencies of a task are done. -/
def Track.dependenciesDone (track : Track V) (task : Task) : Prop :=
  ∀ key ∈ task.dependsOn, ∃ other ∈ track.currentTasks, other.key = key ∧ other.status = .done

omit [DecidableEq V] in
theorem ready_of_dependenciesDone {track : Track V} (mem : task ∈ track.currentTasks)
    (pending : task.status = .pending) (done : track.dependenciesDone task) :
    task ∈ track.tasksInSchedulerOrder.filter (isReady track.tasksInSchedulerOrder) := by
  refine mem_filter.mpr ⟨(mem_insertionSort _).mpr mem, ?_⟩
  simp only [isReady, pending, beq_self_eq_true, Bool.true_and, all_eq_true, decide_eq_true_eq]
  intro key depends
  obtain ⟨other, otherMem, sameKey, isDone⟩ := done key depends
  exact mem_map.mpr ⟨other, mem_filter.mpr
    ⟨(mem_insertionSort _).mpr otherMem, by simp [isDone]⟩, sameKey⟩

/-- **Readers-writer exclusion.**  In every run from a free checkout, at every moment:

* an attempt that changes the checkout is never inside it together with another attempt;
* a task is claimed only when every key it depends on is done;
* a read-only task of the checkout is claimed only when the occupancy admits every writer of
  the checkout that precedes it and is pending with its dependencies done, the occupancy
  apart from the reader as well as the one apart from that writer. -/
theorem checkout_exclusion {start s : System V} (free : Free start) (run : Reaches start s) :
    (∀ task ∈ s.track.tasks, ∀ other ∈ s.track.tasks, Inside s task.id → Inside s other.id →
      task.id ≠ other.id → task.access ≠ .readWrite) ∧
    ∀ now fenced id claimed, claimTask now fenced s.track id = some claimed →
      ∃ task ∈ s.track.currentTasks, task.id = id ∧ task.status = .pending ∧
        s.track.dependenciesDone task ∧
        (task.runsInTrackCheckout = true → task.access = .readOnly →
          ∀ writer ∈ s.track.currentTasks, writer.runsInTrackCheckout = true →
            writer.access = .readWrite → writer.status = .pending →
            s.track.dependenciesDone writer → writer.rank < task.rank →
            (checkoutOccupancy now s.track id).admits .readWrite = true ∧
            (checkoutOccupancy now s.track writer.id).admits .readWrite = true) := by
  have sound : Sound s := free.sound.run run
  refine ⟨fun task mem other otherMem inside inside' ne writes => ?_,
    fun now fenced id claimed h => ?_⟩
  · cases (sound.exclusive task mem other otherMem inside inside' ne).symm.trans writes
  · obtain ⟨-, task, admitted, rfl⟩ := claimTask_admitted h
    obtain ⟨mem, current, pending, done⟩ := admission_ready admitted
    refine ⟨task, mem_filter.mpr ⟨mem, by simpa using current⟩, rfl, pending, done, ?_⟩
    intro checkout reads writer writerMem writerCheckout writes writerPending writerDone before
    have ready := ready_of_dependenciesDone writerMem writerPending writerDone
    have admits := admission_overtakes sound.keyed admitted checkout reads ready writerCheckout
      writes before
    refine ⟨admits, ?_⟩
    rwa [← sound.occupancy_pending mem pending (mem_filter.mp writerMem).1 writerPending]

/-! Two readers are claimed, submitted and prepared; while they are inside, the writer that comes
after them is refused. -/

def trialTask (id : Text) (access : TaskAccess) (createdAt : Int) : Task where
  id
  key := id
  kind := .codex
  spawn := []
  access
  dependsOn := []
  priority := 0
  createdAt
  status := .pending

def trialTrack : Track Unit where
  id := ['t']
  isOpen := true
  tasks := [trialTask ['q'] .readOnly 0, trialTask ['r'] .readOnly 0, trialTask ['w'] .readWrite 1]
  current := some
  operations := []
  leases := []
  deliveries := []

def trialInputs (id : Text) : Inputs Unit where
  id
  operationKey := id
  kind := "codex-worker".toList
  idempotencyKey := some id
  payloadHash := []
  payload := ⟨some ['t'], some id, ()⟩

def trialHandle (id : Text) : Operation Unit :=
  (insertPendingRow (trialInputs id) none).leasedTo ['d'] 0

theorem trial_free : Free ⟨trialTrack, []⟩ where
  keyed := ⟨by decide, by simp [trialTrack], by simp [trialTrack], by simp [trialTrack]⟩
  entered := by simp
  tasks := by decide
  leases := by simp [trialTrack]
  deliveries := by simp [trialTrack]

def submitted (track : Track Unit) (id : Text) : Track Unit :=
  { track with operations := track.operations ++ [insertPendingRow (trialInputs id) none] }

/-- A task is claimed, submitted, taken by a driver and prepared. -/
def enter (track : Track Unit) (id : Text) : Option (Task × Track Unit) := do
  let claimed ← claimTask 0 true track id
  prepare 0 ((submitted claimed id).setOperation (trialHandle id)) (trialHandle id)
    ⟨[], none, (), .other ()⟩ id

theorem enter_reaches {s : System Unit} (id : Text) (entry : Task × Track Unit)
    (run : Reaches ⟨trialTrack, []⟩ s)
    (fresh : ∀ op ∈ s.track.operations, op.id ≠ id ∧ op.idempotencyKey ≠ some id)
    (done : enter s.track id = some entry) :
    Reaches ⟨trialTrack, []⟩ ⟨entry.2, entry.1.id :: s.entered⟩ := by
  obtain ⟨claimed, claims, prepared⟩ := Option.bind_eq_some_iff.mp done
  have submits : Step ⟨claimed, s.entered⟩ ⟨submitted claimed id, s.entered⟩ := by
    obtain ⟨rfl, -⟩ := claimTask_admitted claims
    exact .submit (fun op mem => (fresh op mem).1) fun op mem _ _ => (fresh op mem).2
  have holds : Step ⟨submitted claimed id, s.entered⟩
      ⟨(submitted claimed id).setOperation (trialHandle id), s.entered⟩ :=
    .operate (mem_append_right _ mem_cons_self)
      (show perform 0 (.claimDrivable 0 ['d']) (insertPendingRow (trialInputs id) none) =
        some (⟨some ['d'], false⟩, trialHandle id) from rfl) nofun
  exact (((run.tail (.claim claims)).tail submits).tail holds).tail (.prepare prepared)

def trialOne : Task × Track Unit := (enter trialTrack ['q']).get (by decide +kernel)

def trialTwo : Task × Track Unit := (enter trialOne.2 ['r']).get (by decide +kernel)

theorem trial_reached : Reaches ⟨trialTrack, []⟩ ⟨trialTwo.2, [trialTwo.1.id, trialOne.1.id]⟩ := by
  have one := enter_reaches ['q'] trialOne .refl (by decide) (Option.some_get _).symm
  exact enter_reaches ['r'] trialTwo one (by decide +kernel) (Option.some_get _).symm

theorem checkout_exclusion_trial : ∃ s, Reaches ⟨trialTrack, []⟩ s ∧
    Inside s ['q'] ∧ Inside s ['r'] ∧ claimTask 0 true s.track ['w'] = none ∧
    ∀ task ∈ s.track.tasks, ∀ other ∈ s.track.tasks, Inside s task.id → Inside s other.id →
      task.id ≠ other.id → task.access ≠ .readWrite := by
  have refused : (claimTask 0 true trialTwo.2 ['w']).isNone = true := by decide +kernel
  exact ⟨_, trial_reached, ⟨by decide +kernel, .inl (by decide +kernel)⟩,
    ⟨by decide +kernel, .inl (by decide +kernel)⟩, Option.isNone_iff_eq_none.mp refused,
    (checkout_exclusion trial_free trial_reached).1⟩

end NeigeCalm.Checkout
