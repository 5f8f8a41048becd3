import NeigeCalm.Library.Fallible
import NeigeCalm.Operations.Row
import Mathlib.Logic.Relation

/-!
# An operation settles once

Any number of drivers, sweepers, cancelers and completers act on one row, each step one
transaction, with handles they read at any earlier time.  `Action` is every such step and
`perform` what it does to the row.

Beside the row, `State` remembers what the row does not: how often it left a phase (`epoch`),
and for each lease owner ever minted the epoch and the phase it claimed the row in.  A step
that writes a phase ends an epoch.  The invariant (`State.Sound`) says that the current lease
owner, if any, claimed the row in the current epoch.  So a handle of an earlier epoch finds
another owner, or none, and does nothing.
-/

namespace NeigeCalm.Operations

open Library Option Fallible

variable {V : Type}

/-! ## What a step can do -/

/-- What a step did to the claim: whom it leased the row to, and whether it wrote a phase. -/
structure Effect where
  owner : Option Text
  left : Bool

/-- What every step does to a row: it keeps the inputs and never loses an output, it finds
the row unsettled, it settles only by writing a phase, and it leaves the row leased to the
owner it minted, or to the owner before it while it stays in the phase, or to nobody. -/
structure Written (now : Int) (row : Operation V) (effect : Effect) (row' : Operation V) :
    Prop where
  inputs : row'.toInputs = row.toInputs
  output : row.txOutput.isSome → row'.txOutput.isSome
  unsettled : row.phase.isTerminal = false ∨ row.completedAt = none
  kept : effect.left = false → row'.phase = row.phase ∧ row'.completedAt = row.completedAt
  advanced : effect.left = true → row'.phase.isTerminal = false → row'.completedAt = row.completedAt
  settled : effect.left = true → row'.phase.isTerminal = true →
    row'.completedAt = some now ∧ row'.leaseOwner = none ∧ row'.leaseUntil = none ∧
      (row'.phase = .succeeded → row'.txOutput.isSome) ∧ (operationResultFrom row').isSome
  minted : ∀ owner, effect.owner = some owner →
    row'.leaseOwner = some owner ∧ row'.phase.isTerminal = false
  lease : effect.owner = none → row'.leaseOwner = none ∨
    effect.left = false ∧ row'.leaseOwner = row.leaseOwner

variable {row : Operation V}

theorem isTerminal_of_isDrivable {phase : PhaseTag} (h : phase.isDrivable = true) :
    phase.isTerminal = false := by
  cases phase <;> simp_all [PhaseTag.isDrivable, PhaseTag.isTerminal]

@[simp] theorem serializeSplit_tag (phase : Phase) : phase.serializeSplit.1 = phase.tag := by
  cases phase <;> rfl

/-- A claim in a phase that is not terminal. -/
theorem Written.leases (live : row.phase.isTerminal = false) (inputs : row'.toInputs = row.toInputs)
    (output : row'.txOutput = row.txOutput) (phase : row'.phase = row.phase)
    (completed : row'.completedAt = row.completedAt) (lease : row'.leaseOwner = some owner) :
    Written now row ⟨some owner, false⟩ row' where
  inputs := inputs
  output some := by rw [output]; exact some
  unsettled := .inl live
  kept _ := ⟨phase, completed⟩
  advanced := nofun
  settled := nofun
  minted _ same := ⟨lease.trans same, phase ▸ live⟩
  lease := nofun

/-- A write of anything but the phase and the inputs, that frees the row or keeps its owner. -/
theorem Written.keeps (live : row.phase.isTerminal = false ∨ row.completedAt = none)
    (inputs : row'.toInputs = row.toInputs) (output : row'.txOutput = row.txOutput)
    (phase : row'.phase = row.phase) (completed : row'.completedAt = row.completedAt)
    (lease : row'.leaseOwner = none ∨ row'.leaseOwner = row.leaseOwner) :
    Written now row ⟨none, false⟩ row' where
  inputs := inputs
  output some := by rw [output]; exact some
  unsettled := live
  kept _ := ⟨phase, completed⟩
  advanced := nofun
  settled := nofun
  minted := nofun
  lease _ := lease.imp id fun same => ⟨rfl, same⟩

/-- A write of a phase that is not terminal, under a claim. -/
theorem Written.advances (open_ : row.completedAt = none)
    (inputs : row'.toInputs = row.toInputs) (output : row.txOutput.isSome → row'.txOutput.isSome)
    (phase : row'.phase.isTerminal = false) (completed : row'.completedAt = row.completedAt)
    (free : row'.leaseOwner = none) : Written now row ⟨none, true⟩ row' where
  inputs := inputs
  output := output
  unsettled := .inr open_
  kept := nofun
  advanced _ _ := completed
  settled _ terminal := by rw [phase] at terminal; cases terminal
  minted := nofun
  lease _ := .inl free

theorem Written.retains (open_ : row.completedAt = none) :
    Written now row ⟨none, false⟩ row.retained :=
  .keeps (.inr open_) rfl rfl rfl rfl (.inr rfl)

/-- The terminal write settles the row at `now`. -/
theorem writeTerminal_written (live : row.phase.isTerminal = false ∨ row.completedAt = none)
    (h : writeTerminal now outcome row = .ok (result, row')) :
    Written now row ⟨none, true⟩ row' ∧ row'.phase.isTerminal = true := by
  have settles : ∀ (phase : PhaseTag) (phaseDetail : Option PhaseDetail)
      (lastError : Option Text) (txOutput : Option (TxOutput V)),
      phase.isTerminal = true → (row.txOutput.isSome → txOutput.isSome) →
      (phase = .succeeded → txOutput.isSome) →
      (operationResultFrom (row.settled now phase phaseDetail lastError txOutput)).isSome →
      Written now row ⟨none, true⟩ (row.settled now phase phaseDetail lastError txOutput) ∧
        (row.settled now phase phaseDetail lastError txOutput).phase.isTerminal = true := by
    intro phase phaseDetail lastError txOutput terminal output succeeded result
    refine ⟨⟨rfl, output, live, nofun, fun _ other => ?_,
      fun _ _ => ⟨rfl, rfl, rfl, succeeded, result⟩, nofun, fun _ => .inl rfl⟩, terminal⟩
    rw [show (row.settled now phase phaseDetail lastError txOutput).phase = phase from rfl,
      terminal] at other
    cases other
  unfold writeTerminal at h
  cases outcome with
  | succeeded | succeededWithResult =>
    cases stored : row.txOutput with
    | none => simp [stored] at h
    | some =>
      simp only [stored, Except.ok.injEq, Prod.mk.injEq] at h
      rw [← h.2]
      exact settles _ _ _ _ rfl (fun _ => rfl) (fun _ => rfl) rfl
  | failed | stuck =>
    simp only [Except.ok.injEq, Prod.mk.injEq] at h
    rw [← h.2]
    exact settles _ _ _ _ rfl id nofun rfl

/-! ## Steps -/

inductive Action (V : Type) where
  | claimDrivable (read : Int) (owner : Text)
  | claimOperationForBootRecovery (read : Int) (owner : Text)
  | claimParked (read : Int) (owner : Text)
  | claimParkedForBoot (read : Int) (owner : Text)
  | claimPendingRetry (owner : Text) (original : Operation V)
  | claimRetry (read : Int) (owner : Text) (op : Operation V) (expectedAttempt : Int)
  | clearParkedLeaseForBoot
  | deferPendingClaim (op : Operation V) (blocker : PendingBlocker)
      (retryOwner : PendingRetryOwner)
  | deferUnclaimedPending (read : Int) (blocker : PendingBlocker)
  | releasePendingForRetry
  | setPhase (op : Operation V) (phase : Phase) (ownerKey : Option OwnerKey)
  | setPhaseAndTxOutput (op : Operation V) (phase : Phase) (output : TxOutput V)
  | commitInserted (op : Operation V) (phase : Phase) (output : TxOutput V)
  | recordSpawnArtifacts (op : Operation V) (artifacts : V)
  | setParked (op : Operation V) (deadline : Int) (ownerKey : Option OwnerKey)
  | setCompensating (op : Operation V) (state : CompensationState V)
      (ownerKey : Option OwnerKey)
  | updateCompensationState (op : Operation V) (state : CompensationState V)
  | settleClaimed (op : Operation V) (outcome : TerminalOutcome V) (ownerKey : Option OwnerKey)
  | completeParked (outcome : ParkedOutcome V)

/-- The claimed handle a step is made with. -/
def Action.handle : Action V → Option (Operation V)
  | .deferPendingClaim op _ _ | .setPhase op _ _ | .setPhaseAndTxOutput op _ _
  | .recordSpawnArtifacts op _ | .setParked op _ _ | .setCompensating op _ _
  | .updateCompensationState op _ | .settleClaimed op _ _ => some op
  | _ => none

/-- The lease owner a step mints. -/
def Action.mints : Action V → Option Text
  | .claimDrivable _ owner | .claimOperationForBootRecovery _ owner | .claimParked _ owner
  | .claimParkedForBoot _ owner | .claimPendingRetry owner _ | .claimRetry _ owner _ _ =>
    some owner
  | _ => none

/-- The clock as a step read it before its transaction began. -/
def Action.reads : Action V → Option Int
  | .claimDrivable read _ | .claimOperationForBootRecovery read _ | .claimParked read _
  | .claimParkedForBoot read _ | .claimRetry read _ _ _ | .deferUnclaimedPending read _ =>
    some read
  | _ => none

def leasing (owner : Text) (left : Bool) (row : Option (Operation V)) :
    Option (Effect × Operation V) :=
  row.map fun row => (⟨some owner, left⟩, row)

def keeping (row : Option (Operation V)) : Option (Effect × Operation V) :=
  row.map fun row => (⟨none, false⟩, row)

def writing {α : Type} (left : Bool) :
    Except CalmError (LeaveWrite α × Operation V) → Option (Effect × Operation V)
  | .ok (.applied _, row) => some (⟨none, left⟩, row)
  | .ok (.retained, row) => some (⟨none, false⟩, row)
  | _ => none

theorem leasing_eq_some (h : leasing owner left claimed = some (effect, row')) :
    claimed = some row' ∧ effect = ⟨some owner, left⟩ := by
  cases claimed with
  | none => simp [leasing] at h
  | some => simp_all [leasing]

theorem keeping_eq_some (h : keeping written = some (effect, row')) :
    written = some row' ∧ effect = ⟨none, false⟩ := by
  cases written with
  | none => simp [keeping] at h
  | some => simp_all [keeping]

variable [DecidableEq V]

/-- One step on the row; `none` when it wrote nothing. -/
def perform (now : Int) (action : Action V) (row : Operation V) :
    Option (Effect × Operation V) :=
  match action with
  | .claimDrivable read owner => leasing owner false (claimDrivable read owner row)
  | .claimOperationForBootRecovery read owner =>
    leasing owner false (claimOperationForBootRecovery read owner row)
  | .claimParked read owner => leasing owner false (claimParked read owner row)
  | .claimParkedForBoot read owner => leasing owner false (claimParkedForBoot read owner row)
  | .claimPendingRetry owner original =>
    leasing owner false (claimPendingRetry now owner original row).toOption.join
  | .claimRetry read owner op expectedAttempt =>
    leasing owner true (claimRetry read owner op expectedAttempt row).toOption.join
  | .clearParkedLeaseForBoot => keeping (clearParkedLeaseForBoot row)
  | .deferPendingClaim op blocker retryOwner =>
    keeping (deferPendingClaim now op blocker retryOwner row).toOption.join
  | .deferUnclaimedPending read blocker => keeping (deferUnclaimedPending read blocker row)
  | .releasePendingForRetry => keeping (releasePendingForRetry now row)
  | .setPhase op phase ownerKey => writing true (setPhase now op phase ownerKey row)
  | .setPhaseAndTxOutput op phase output =>
    writing true (setPhaseAndTxOutput now op phase output row)
  | .commitInserted op phase output =>
    writing true (writePhaseAndTxOutput now (.inserted op) phase output row)
  | .recordSpawnArtifacts op artifacts =>
    keeping (recordSpawnArtifacts now op artifacts row).toOption.join
  | .setParked op deadline ownerKey => writing true (setParked now op deadline ownerKey row)
  | .setCompensating op state ownerKey =>
    writing true (setCompensating now op state ownerKey row)
  | .updateCompensationState op state =>
    writing false (updateCompensationState now op state row)
  | .settleClaimed op outcome ownerKey =>
    writing true (settleClaimed now op outcome ownerKey row)
  | .completeParked outcome =>
    match completeParked now outcome row with
    | .ok (some _, row') => some (⟨none, true⟩, row')
    | _ => none

/-! ## Live claims -/

/-- `op` is the handle of the claim that holds the row at `now`. -/
structure LiveClaim (now : Int) (op row : Operation V) (owner : Text) : Prop where
  inputs : row.toInputs = op.toInputs
  phase : row.phase = op.phase
  handle : op.leaseOwner = some owner
  held : row.leaseOwner = some owner
  unexpired : ∃ deadline, row.leaseUntil = some deadline ∧ now ≤ deadline
  unsettled : row.completedAt = none

theorem hasLiveClaim_true (h : hasLiveClaim now op row = .ok true) :
    ∃ owner, LiveClaim now op row owner := by
  unfold hasLiveClaim requiredLeaseOwner at h
  cases handle : op.leaseOwner with
  | none => simp [handle] at h
  | some owner =>
    simp only [handle, Except.ok.injEq, Bool.and_eq_true, decide_eq_true_eq, beq_iff_eq,
      any_eq_true, isNone_iff_eq_none] at h
    obtain ⟨⟨⟨⟨inputs, phase⟩, held⟩, deadline, expiry, later⟩, unsettled⟩ := h
    exact ⟨owner, inputs, phase, handle, held, ⟨deadline, expiry, later⟩, unsettled⟩

/-- A write that took effect found a live claim. -/
theorem writing_underClaim {α : Type} {write : Except CalmError (LeaveWrite α × Operation V)}
    (h : writing left (underClaim now op row write) = some (effect, row')) :
    (∃ owner, LiveClaim now op row owner) ∧ writing left write = some (effect, row') := by
  unfold underClaim at h
  cases claim : hasLiveClaim now op row with
  | error => simp [claim, writing] at h
  | ok live =>
    cases live with
    | false => simp [claim, writing] at h
    | true => exact ⟨hasLiveClaim_true claim, by simpa [claim] using h⟩

/-! ## Every step is a write -/

theorem toOption_join {α : Type} {result : Except CalmError (Option α)} {value : α}
    (h : result.toOption.join = some value) : result = .ok (some value) := by
  cases result with
  | error => simp [Except.toOption] at h
  | ok => simpa [Except.toOption] using h

/-- A write that took effect under a live claim. -/
def ClaimedWrite (now : Int) (op row : Operation V) (effect : Effect) (row' : Operation V) :
    Prop :=
  (∃ owner, LiveClaim now op row owner) ∧ Written now row effect row'

/-- A claimed write is a live claim and what its body writes once the claim is found. -/
theorem ClaimedWrite.of_underClaim {α : Type}
    {write : Except CalmError (LeaveWrite α × Operation V)}
    (body : row.completedAt = none → writing left write = some (effect, row') →
      Written now row effect row')
    (h : writing left (underClaim now op row write) = some (effect, row')) :
    ClaimedWrite now op row effect row' := by
  obtain ⟨⟨owner, live⟩, written⟩ := writing_underClaim h
  exact ⟨⟨owner, live⟩, body live.unsettled written⟩

theorem setPhase_written
    (h : writing true (setPhase now op phase ownerKey row) = some (effect, row')) :
    ClaimedWrite now op row effect row' := by
  unfold setPhase at h
  split at h
  · cases h
  rename_i terminal
  split at h
  · cases h
  refine .of_underClaim (fun unsettled written => ?_) h
  split at written <;> cases written
  · exact .retains unsettled
  · exact .advances unsettled rfl id (by simpa using terminal) rfl rfl

theorem setParked_written {deadline : Int}
    (h : writing true (setParked now op deadline ownerKey row) = some (effect, row')) :
    ClaimedWrite now op row effect row' := by
  unfold setParked at h
  split at h
  · cases h
  refine .of_underClaim (fun unsettled written => ?_) h
  split at written
  · cases written
    exact .advances unsettled rfl id rfl rfl rfl
  · cases written

theorem setCompensating_written {state : CompensationState V}
    (h : writing true (setCompensating now op state ownerKey row) = some (effect, row')) :
    ClaimedWrite now op row effect row' := by
  refine .of_underClaim (fun unsettled written => ?_) h
  split at written
  · cases written
    exact .retains unsettled
  split at written
  · cases written
  · cases written
    exact .advances unsettled rfl id rfl rfl rfl

theorem updateCompensationState_written {state : CompensationState V}
    (h : writing false (updateCompensationState now op state row) = some (effect, row')) :
    ClaimedWrite now op row effect row' := by
  refine .of_underClaim (fun unsettled written => ?_) h
  cases written
  exact .keeps (.inr unsettled) rfl rfl rfl rfl (.inr rfl)

theorem settleClaimed_written {outcome : TerminalOutcome V}
    (h : writing true (settleClaimed now op outcome ownerKey row) = some (effect, row')) :
    ClaimedWrite now op row effect row' := by
  refine .of_underClaim (fun unsettled written => ?_) h
  split at written
  · cases written
    exact .retains unsettled
  cases terminal : writeTerminal now outcome row with
  | error => simp [terminal, writing] at written
  | ok =>
    rw [terminal] at written
    cases written
    exact (writeTerminal_written (.inr unsettled) terminal).1

/-- A phase written with its output, by either authority. -/
theorem writePhaseAndTxOutput_applied
    (h : writePhaseAndTxOutput now authority phase output row = .ok (.applied value, row')) :
    authority.admits now output row = .ok true ∧
      (phase.tag.isTerminal = true → authority.settles phase = true) ∧
      row' = { row with
        phase := phase.tag
        phaseDetail := phase.serializeSplit.2
        txOutput := some (preservingOwner row.txOutput output)
        leaseOwner := none
        leaseUntil := none
        completedAt := if phase.tag.isTerminal then some now else row.completedAt } := by
  unfold writePhaseAndTxOutput at h
  split at h
  · cases h
  rename_i terminal
  cases admitted : authority.admits now output row with
  | error => simp [admitted] at h
  | ok flag =>
    cases flag with
    | false => simp [admitted] at h
    | true =>
      simp only [admitted] at h
      split at h
      · cases h
      cases h
      refine ⟨rfl, fun settled => by simpa [settled] using terminal, ?_⟩
      rw [serializeSplit_tag]

theorem writePhaseAndTxOutput_written
    (h : writing true (writePhaseAndTxOutput now authority phase output row) =
      some (effect, row')) :
    authority.admits now output row = .ok true ∧
      (row.completedAt = none → Written now row effect row') := by
  unfold writing at h
  split at h
  · rename_i applied
    cases h
    obtain ⟨admitted, terminal, rfl⟩ := writePhaseAndTxOutput_applied applied
    refine ⟨admitted, fun unsettled => ⟨rfl, fun _ => rfl, .inr unsettled, nofun, fun _ live => ?_,
      fun _ settled => ⟨?_, rfl, rfl, fun _ => rfl, ?_⟩, nofun, fun _ => .inl rfl⟩⟩
    · simp_all
    · simp_all
    · have succeeded : phase = .succeeded := by
        have := terminal settled
        cases authority <;> cases phase <;> simp_all [PhaseWrite.settles, Phase.tag]
      subst succeeded
      rfl
  · -- This write has no owner to retain.
    rename_i retained
    unfold writePhaseAndTxOutput at retained
    repeat' split at retained
    all_goals cases retained
  · cases h

theorem setPhaseAndTxOutput_written
    (h : writing true (setPhaseAndTxOutput now op phase output row) = some (effect, row')) :
    ClaimedWrite now op row effect row' := by
  obtain ⟨admitted, written⟩ := writePhaseAndTxOutput_written h
  simp only [PhaseWrite.admits] at admitted
  obtain ⟨flag, claim, _⟩ := bind_eq_ok.mp admitted
  have live : flag = true := by
    cases flag <;> simp_all [pure, Except.pure]
  obtain ⟨owner, live⟩ := hasLiveClaim_true (live ▸ claim)
  exact ⟨⟨owner, live⟩, written live.unsettled⟩

theorem commitInserted_written
    (h : writing true (writePhaseAndTxOutput now (.inserted op) phase output row) =
      some (effect, row')) : Written now row effect row' := by
  obtain ⟨admitted, written⟩ := writePhaseAndTxOutput_written h
  simp only [PhaseWrite.admits] at admitted
  obtain ⟨-, -, admitted⟩ := bind_eq_ok.mp admitted
  split at admitted
  · cases admitted
  · simp only [pure, Except.pure, Except.ok.injEq, Bool.and_eq_true, isNone_iff_eq_none] at admitted
    exact written admitted.2

/-- The claim check of the writes that raise an error when it fails. -/
theorem required_claim {α : Type} {write : Except CalmError α} {result : α} (h : (do
      if !(← hasLiveClaim now op row) then throw error
      write) = .ok result) : (∃ owner, LiveClaim now op row owner) ∧ write = .ok result := by
  obtain ⟨flag, claim, rest⟩ := bind_eq_ok.mp h
  cases flag with
  | false => cases rest
  | true => exact ⟨hasLiveClaim_true claim, rest⟩

theorem deferPendingClaim_written {retryOwner : PendingRetryOwner}
    (h : deferPendingClaim now op blocker retryOwner row = .ok (some row')) :
    ClaimedWrite now op row ⟨none, false⟩ row' := by
  obtain ⟨⟨owner, live⟩, written⟩ := required_claim h
  refine ⟨⟨owner, live⟩, ?_⟩
  split at written
  · cases written
    exact .keeps (.inr live.unsettled) rfl rfl rfl rfl (.inl rfl)
  · cases written

theorem recordSpawnArtifacts_written {artifacts : V}
    (h : recordSpawnArtifacts now op artifacts row = .ok (some row')) :
    ClaimedWrite now op row ⟨none, false⟩ row' := by
  obtain ⟨⟨owner, live⟩, written⟩ := required_claim h
  refine ⟨⟨owner, live⟩, ?_⟩
  split at written
  · cases written
  · cases written
    exact .keeps (.inr live.unsettled) rfl rfl rfl rfl (.inr rfl)

/-- The steps made with a claimed handle. -/
theorem perform_claimed {action : Action V} (made : action.handle = some op)
    (h : perform now action row = some (effect, row')) : ClaimedWrite now op row effect row' := by
  cases action with cases made
  | deferPendingClaim =>
    obtain ⟨written, rfl⟩ := keeping_eq_some h
    exact deferPendingClaim_written (toOption_join written)
  | recordSpawnArtifacts =>
    obtain ⟨written, rfl⟩ := keeping_eq_some h
    exact recordSpawnArtifacts_written (toOption_join written)
  | setPhase => exact setPhase_written h
  | setPhaseAndTxOutput => exact setPhaseAndTxOutput_written h
  | setParked => exact setParked_written h
  | setCompensating => exact setCompensating_written h
  | updateCompensationState => exact updateCompensationState_written h
  | settleClaimed => exact settleClaimed_written h

theorem claimPendingRetry_written (h : claimPendingRetry now owner original row = .ok (some row')) :
    Written now row ⟨some owner, false⟩ row' := by
  obtain ⟨-, -, h⟩ := bind_eq_ok.mp h
  obtain ⟨-, -, h⟩ := bind_eq_ok.mp h
  split at h
  · rename_i claimable
    obtain ⟨-, -, h⟩ := bind_eq_ok.mp h
    cases h
    have pending : row.phase = .pending := by simp_all
    exact .leases (by rw [pending]; rfl) rfl rfl rfl rfl rfl
  · cases h

omit [DecidableEq V] in
theorem claimRetry_written {read : Int}
    (h : claimRetry read owner op expectedAttempt row = .ok (some row')) :
    Written now row ⟨some owner, true⟩ row' := by
  unfold claimRetry at h
  split at h
  · split at h
    · cases h
    split at h
    · rename_i claimable
      cases h
      have unsettled : row.completedAt = none := claimable.2.2.2.2.2.2.2.2
      exact ⟨rfl, id, .inr unsettled, nofun, fun _ _ => rfl, nofun,
        fun _ same => ⟨same, rfl⟩, nofun⟩
    · cases h
  · cases h

theorem perform_written {action : Action V} (h : perform now action row = some (effect, row')) :
    Written now row effect row' := by
  -- A claim that only writes the lease, in a phase that is not terminal.
  have leased : ∀ {claimable : Prop} [Decidable claimable] {read : Int} {owner : Text},
      (claimable → row.phase.isTerminal = false) →
      leasing owner false (if claimable then some (row.leasedTo owner read) else none) =
        some (effect, row') → Written now row effect row' := by
    intro claimable _ read owner live claimed
    obtain ⟨written, rfl⟩ := leasing_eq_some claimed
    split at written
    · rename_i may
      cases written
      exact .leases (live may) rfl rfl rfl rfl rfl
    · cases written
  cases made : action.handle with
  | some => exact (perform_claimed made h).2
  | none =>
    cases action with
    | claimDrivable | claimOperationForBootRecovery =>
      exact leased (fun may => isTerminal_of_isDrivable (by simp_all)) h
    | claimParked | claimParkedForBoot =>
      exact leased (fun may => by simp_all [PhaseTag.isTerminal]) h
    | claimPendingRetry =>
      obtain ⟨written, rfl⟩ := leasing_eq_some h
      exact claimPendingRetry_written (toOption_join written)
    | claimRetry =>
      obtain ⟨written, rfl⟩ := leasing_eq_some h
      exact claimRetry_written (toOption_join written)
    | clearParkedLeaseForBoot | deferUnclaimedPending | releasePendingForRetry =>
      obtain ⟨written, rfl⟩ := keeping_eq_some h
      simp only [clearParkedLeaseForBoot, deferUnclaimedPending, releasePendingForRetry] at written
      split at written
      · cases written
        exact .keeps (.inl (by simp_all [PhaseTag.isTerminal])) rfl rfl rfl rfl (.inl rfl)
      · cases written
    | commitInserted => exact commitInserted_written h
    | completeParked =>
      simp only [perform, completeParked] at h
      split at h
      · rename_i completed
        cases h
        split at completed
        · cases completed
        rename_i parked
        split at completed
        · cases completed
        split at completed
        · cases completed
        · rename_i terminal
          cases completed
          have live : row.phase.isTerminal = false := by simp_all [PhaseTag.isTerminal]
          exact (writeTerminal_written (.inl live) terminal).1
      · cases h
    | _ => cases made

/-! ## Runs -/

/-- The epoch and the phase a lease owner claimed the row in. -/
structure Claim where
  epoch : Nat
  phase : PhaseTag
deriving DecidableEq

structure State (V : Type) where
  row : Operation V
  clock : Int
  epoch : Nat
  claims : Text → Option Claim

/-- A row that was just inserted, before anybody claimed it. -/
def State.start (row : Operation V) (clock : Int) : State V where
  row := row
  clock := clock
  epoch := 0
  claims := fun _ => none

/-- The state after a step that wrote `row'`. -/
def State.wrote (s : State V) (now : Int) (effect : Effect) (row' : Operation V) : State V where
  row := row'
  clock := now
  epoch := if effect.left then s.epoch + 1 else s.epoch
  claims := match effect.owner with
    | none => s.claims
    | some owner => Function.update s.claims owner
        (some ⟨if effect.left then s.epoch + 1 else s.epoch, row'.phase⟩)

/-- One step of anybody, no earlier than the last one, with a lease owner never used before. -/
inductive Step (s : State V) (action : Action V) : State V → Prop
  | wrote {now : Int} {effect : Effect} {row' : Operation V} (later : s.clock ≤ now)
      (read : ∀ read, action.reads = some read → read ≤ now)
      (fresh : ∀ owner, action.mints = some owner → s.claims owner = none)
      (done : perform now action s.row = some (effect, row')) :
      Step s action (s.wrote now effect row')
  | refused {now : Int} (later : s.clock ≤ now) (refusal : perform now action s.row = none) :
      Step s action { s with clock := now }

/-- Any number of steps. -/
def Reaches : State V → State V → Prop :=
  Relation.ReflTransGen fun s t => ∃ action, Step s action t

/-- What holds of the row and its claims in every run: a settled row has its completion time,
no lease and, when it succeeded, an output; and whoever holds the lease claimed the row in
this epoch and this phase. -/
structure State.Sound (s : State V) : Prop where
  completed : s.row.phase.isTerminal = true ↔ s.row.completedAt.isSome = true
  released : s.row.phase.isTerminal = true → s.row.leaseOwner = none ∧ s.row.leaseUntil = none
  output : s.row.phase = .succeeded → s.row.txOutput.isSome = true
  result : s.row.phase.isTerminal = true → (operationResultFrom s.row).isSome = true
  held : ∀ owner, s.row.leaseOwner = some owner → s.claims owner = some ⟨s.epoch, s.row.phase⟩
  past : ∀ owner claim, s.claims owner = some claim → claim.epoch ≤ s.epoch

variable {s : State V}

section Claims

omit [DecidableEq V]

theorem State.wrote_claims_none (kept : effect.owner = none) :
    (s.wrote now effect row').claims = s.claims := by
  simp [State.wrote, kept]

theorem State.wrote_claims_self (minted : effect.owner = some owner) :
    (s.wrote now effect row').claims owner =
      some ⟨(s.wrote now effect row').epoch, row'.phase⟩ := by
  simp [State.wrote, minted]

theorem State.wrote_claims_of_ne (minted : effect.owner = some owner) (ne : other ≠ owner) :
    (s.wrote now effect row').claims other = s.claims other := by
  simp [State.wrote, minted, Function.update_of_ne ne]

theorem State.epoch_le_wrote : s.epoch ≤ (s.wrote now effect row').epoch := by
  simp only [State.wrote]
  split <;> omega

theorem State.Sound.start (inputs : Inputs V) (phaseDetail : Option PhaseDetail) (clock : Int) :
    (State.start (insertPendingRow inputs phaseDetail) clock).Sound where
  completed := ⟨nofun, nofun⟩
  released := nofun
  output := nofun
  result := nofun
  held := nofun
  past := nofun

theorem State.Sound.unsettled (sound : s.Sound) (written : Written now s.row effect row') :
    s.row.phase.isTerminal = false ∧ s.row.completedAt = none := by
  have open_ : s.row.phase.isTerminal = false ↔ s.row.completedAt = none := by
    have := sound.completed
    cases completed : s.row.completedAt <;> cases terminal : s.row.phase.isTerminal <;> simp_all
  rcases written.unsettled with live | none
  · exact ⟨live, open_.mp live⟩
  · exact ⟨open_.mpr none, none⟩

/-- **Step lemma.**  A write keeps the row and its claims sound. -/
theorem State.Sound.wrote (sound : s.Sound) (written : Written now s.row effect row') :
    (s.wrote now effect row').Sound := by
  obtain ⟨live, open_⟩ := sound.unsettled written
  -- Both a step that keeps the phase and one that advances leave the row unsettled.
  have settled : row'.phase.isTerminal = true → effect.left = true := by
    intro terminal
    cases left : effect.left with
    | true => rfl
    | false => rw [(written.kept left).1, live] at terminal; cases terminal
  refine ⟨⟨fun terminal => ?_, fun completed => ?_⟩, fun terminal => ?_, fun succeeded => ?_,
    fun terminal => ?_, fun owner holds => ?_, fun owner claim claimed => ?_⟩
  · exact (written.settled (settled terminal) terminal).1 ▸ rfl
  · cases terminal : row'.phase.isTerminal with
    | true => exact terminal
    | false =>
      have same : row'.completedAt = s.row.completedAt := by
        cases left : effect.left with
        | true => exact written.advanced left terminal
        | false => exact (written.kept left).2
      rw [State.wrote, same, open_] at completed
      cases completed
  · have := written.settled (settled terminal) terminal
    exact ⟨this.2.1, this.2.2.1⟩
  · have terminal : row'.phase.isTerminal = true := by
      rw [show row'.phase = .succeeded from succeeded]; rfl
    exact (written.settled (settled terminal) terminal).2.2.2.1 succeeded
  · exact (written.settled (settled terminal) terminal).2.2.2.2
  · cases minted : effect.owner with
    | some owner' =>
      have same : owner' = owner := some.inj ((written.minted owner' minted).1.symm.trans holds)
      exact State.wrote_claims_self (same ▸ minted)
    | none =>
      rcases written.lease minted with free | ⟨left, same⟩
      · cases free.symm.trans holds
      · have before := sound.held owner (same ▸ holds)
        simpa [State.wrote, minted, left, (written.kept left).1] using before
  · have old : s.claims owner = some claim → claim.epoch ≤ (s.wrote now effect row').epoch :=
      fun before => Nat.le_trans (sound.past owner claim before) State.epoch_le_wrote
    cases minted : effect.owner with
    | none => exact old (State.wrote_claims_none minted ▸ claimed)
    | some owner' =>
      by_cases same : owner = owner'
      · subst same
        cases (State.wrote_claims_self minted).symm.trans claimed
        exact Nat.le_refl _
      · exact old (State.wrote_claims_of_ne minted same ▸ claimed)

end Claims

theorem State.Sound.step (sound : s.Sound) (step : Step s action t) : t.Sound := by
  cases step with
  | wrote _ _ _ done => exact sound.wrote (perform_written done)
  | refused => exact ⟨sound.1, sound.2, sound.3, sound.4, sound.5, sound.6⟩

/-- **Run lemma.** -/
theorem State.Sound.run (sound : s.Sound) (run : Reaches s t) : t.Sound := by
  induction run with
  | refl => exact sound
  | tail _ step ih => exact ih.step step.choose_spec

/-! ## At most once -/

/-- Nothing changes a settled row. -/
theorem State.Sound.settled_step (sound : s.Sound) (settled : s.row.phase.isTerminal = true)
    (step : Step s action t) : t.row = s.row := by
  cases step with
  | wrote _ _ _ done =>
    have live := (sound.unsettled (perform_written done)).1
    cases live.symm.trans settled
  | refused => rfl

theorem State.Sound.settled_run (sound : s.Sound) (settled : s.row.phase.isTerminal = true)
    (run : Reaches s t) : t.row = s.row := by
  induction run with
  | refl => rfl
  | tail run step ih =>
    obtain ⟨_, step⟩ := step
    exact ((sound.run run).settled_step (ih ▸ settled) step).trans ih

/-- A step takes a new owner only from its own minting. -/
theorem perform_mints (h : perform now action row = some (effect, row'))
    (minted : effect.owner = some owner) : action.mints = some owner := by
  have writing_owner : ∀ {α : Type} {left : Bool}
      {written : Except CalmError (LeaveWrite α × Operation V)},
      writing left written = some (effect, row') → effect.owner = none := by
    intro α left written h
    unfold writing at h
    split at h <;> first | (cases h; rfl) | cases h
  have keeping_owner : ∀ {written : Option (Operation V)},
      keeping written = some (effect, row') → effect.owner = none := by
    intro written h
    rw [(keeping_eq_some h).2]
  cases action <;> simp only [perform] at h <;> first
    | (rw [(leasing_eq_some h).2] at minted; exact minted)
    | (rw [keeping_owner h] at minted; cases minted)
    | (rw [writing_owner h] at minted; cases minted)
    | (split at h <;> cases h; cases minted)

/-- The claim of an owner is recorded once. -/
theorem Step.claims_kept (step : Step s action t) (claimed : s.claims owner = some claim) :
    t.claims owner = some claim := by
  cases step with
  | refused => exact claimed
  | @wrote _ effect _ _ _ fresh done =>
    cases minted : effect.owner with
    | none => exact (State.wrote_claims_none minted).symm ▸ claimed
    | some owner' =>
      have other : owner ≠ owner' := by
        rintro rfl
        cases (fresh owner (perform_mints done minted)).symm.trans claimed
      exact (State.wrote_claims_of_ne minted other).trans claimed

theorem Reaches.claims_kept (run : Reaches s t) (claimed : s.claims owner = some claim) :
    t.claims owner = some claim := by
  induction run with
  | refl => exact claimed
  | tail _ step ih => exact step.choose_spec.claims_kept ih

theorem Step.epoch_le (step : Step s action t) : s.epoch ≤ t.epoch := by
  cases step with
  | refused => exact Nat.le_refl _
  | wrote => exact State.epoch_le_wrote

theorem Reaches.epoch_le (run : Reaches s t) : s.epoch ≤ t.epoch := by
  induction run with
  | refl => exact Nat.le_refl _
  | tail _ step ih => exact Nat.le_trans ih step.choose_spec.epoch_le

/-- The claim a handle acts under is the one that holds the row: unexpired, in its phase and
of this epoch. -/
structure Holds (s : State V) (op : Operation V) (now : Int) (owner : Text) : Prop where
  handle : op.leaseOwner = some owner
  held : s.row.leaseOwner = some owner
  unexpired : ∃ deadline, s.row.leaseUntil = some deadline ∧ now ≤ deadline
  phase : s.row.phase = op.phase
  claimed : s.claims owner = some ⟨s.epoch, op.phase⟩

/-- A claimed step that wrote anything was made by the holder of the row. -/
theorem State.Sound.holds (sound : s.Sound) (made : action.handle = some op)
    (step : Step s action t) (changed : t.row ≠ s.row ∨ t.epoch ≠ s.epoch) :
    ∃ owner, Holds s op t.clock owner := by
  cases step with
  | refused => simp at changed
  | wrote _ _ _ done =>
    obtain ⟨⟨owner, live⟩, -⟩ := perform_claimed made done
    exact ⟨owner, live.handle, live.held, live.unexpired, live.phase,
      live.phase ▸ sound.held owner live.held⟩

/-- A step made with the handle `op` that advances or settles the row. -/
def Leaves (s : State V) (op : Operation V) (t : State V) : Prop :=
  ∃ action : Action V, action.handle = some op ∧ Step s action t ∧ t.epoch ≠ s.epoch

/-- **Settlement.**  In every run of an inserted operation, at every moment:

* a settled row is final: no later step changes it;
* a step with a claimed handle changes the row only while its owner is the unexpired owner of
  the row, in the phase that owner claimed it in, with no phase written in between;
* when two claimed steps both advance or settle the row, the second one's claim is of a
  later epoch: no two handles leave one phase;
* exactly the settled rows have a completion time, and they have a result, no lease and, when
  they succeeded, an output. -/
theorem settles_once {inputs : Inputs V} {phaseDetail : Option PhaseDetail} {clock : Int}
    {s : State V} (run : Reaches (.start (insertPendingRow inputs phaseDetail) clock) s) :
    (s.row.phase.isTerminal = true → ∀ t, Reaches s t → t.row = s.row) ∧
    (∀ action op t, Action.handle action = some op → Step s action t → t.row ≠ s.row →
      ∃ owner, Holds s op t.clock owner) ∧
    (∀ op t s' op' t', Leaves s op t → Reaches t s' → Leaves s' op' t' →
      ∃ owner owner' claim claim',
        op.leaseOwner = some owner ∧ op'.leaseOwner = some owner' ∧
        s'.claims owner = some claim ∧ s'.claims owner' = some claim' ∧
        claim.epoch < claim'.epoch) ∧
    (s.row.phase.isTerminal = true ↔ s.row.completedAt.isSome = true) ∧
    (s.row.phase.isTerminal = true → s.row.leaseOwner = none ∧ s.row.leaseUntil = none ∧
      (operationResultFrom s.row).isSome = true ∧
      (s.row.phase = .succeeded → s.row.txOutput.isSome = true)) := by
  have sound : s.Sound := (State.Sound.start inputs phaseDetail clock).run run
  refine ⟨fun settled t later => sound.settled_run settled later,
    fun action op t made step changed => sound.holds made step (.inl changed), ?_,
    sound.completed, fun settled => ⟨(sound.released settled).1, (sound.released settled).2,
      sound.result settled, sound.output⟩⟩
  intro op t s' op' t' leaves later leaves'
  obtain ⟨_, made, step, left⟩ := leaves
  obtain ⟨_, made', step', left'⟩ := leaves'
  obtain ⟨owner, holds⟩ := sound.holds made step (.inr left)
  obtain ⟨owner', holds'⟩ := ((sound.step step).run later).holds made' step' (.inr left')
  have between : s.epoch < s'.epoch :=
    Nat.lt_of_lt_of_le (Nat.lt_of_le_of_ne step.epoch_le (Ne.symm left)) later.epoch_le
  exact ⟨owner, owner', _, _, holds.handle, holds'.handle,
    later.claims_kept (step.claims_kept holds.claimed), holds'.claimed, between⟩

/-! A driver claims a fresh operation and fails it. -/

def trialInputs : Inputs Unit where
  id := "op".toList
  operationKey := "key".toList
  kind := "codex-worker".toList
  idempotencyKey := none
  payloadHash := "hash".toList
  payload := ⟨none, none, ()⟩

def trialClaimed : Operation Unit :=
  (insertPendingRow trialInputs none).leasedTo "driver".toList 0

def trialFailed : Operation Unit :=
  trialClaimed.settled 5 .failed (some (.failure .pending none)) (some "boom".toList) none

def trialHeld : State Unit :=
  (State.start (insertPendingRow trialInputs none) 0).wrote 1 ⟨some "driver".toList, false⟩
    trialClaimed

def trialEnd : State Unit := trialHeld.wrote 5 ⟨none, true⟩ trialFailed

theorem trialEnd_reached :
    Reaches (.start (insertPendingRow trialInputs none) 0) trialEnd := by
  have claims : Step (.start (insertPendingRow trialInputs none) 0)
      (.claimDrivable 0 "driver".toList) trialHeld :=
    .wrote (by decide) (by intro read same; cases same; decide) (fun _ _ => rfl) rfl
  have fails : Step trialHeld
      (.settleClaimed trialClaimed (.failed "boom".toList .pending none) none) trialEnd :=
    .wrote (by decide) nofun nofun rfl
  exact .tail (.tail .refl ⟨_, claims⟩) ⟨_, fails⟩

theorem settles_once_trial :
    trialEnd.row.phase = .failed ∧ ∀ t, Reaches trialEnd t → t.row = trialEnd.row :=
  ⟨rfl, (settles_once trialEnd_reached).1 rfl⟩

end NeigeCalm.Operations
