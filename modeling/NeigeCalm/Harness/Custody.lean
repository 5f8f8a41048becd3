import NeigeCalm.Harness.Queue

/-!
# Queue edits act on what the client saw

Entries leave the queue for a turn, or for a running turn that a human steered them into, and
may come back.  Over every such history an id names one entry, a revision names one text, and an
entry leaves the queue only when a turn takes it or a human who saw it says so.
-/

namespace NeigeCalm.Harness

open Library List Option

/-- The queue, the entries a drain took, those steered into a running turn, and every entry id
that was ever in use. -/
structure Custody where
  queue : List QueueEntry
  drained : List QueueEntry
  steered : List QueueEntry
  used : List Text

/-- The ids of the user entries. -/
def ids (entries : List QueueEntry) : List Text := entries.filterMap QueueEntry.id

/-- A queue with nothing in flight. -/
def Custody.init (queue : List QueueEntry) : Custody :=
  { queue, drained := [], steered := [], used := ids queue }

def Custody.held (state : Custody) : List QueueEntry :=
  state.queue ++ (state.drained ++ state.steered)

inductive Label where
  | enqueue (entry : QueueEntry)
  | mutate (mutation : QueueMutation)
  | drain (count : Nat)
  | rebuffer (batch : List QueueEntry)
  | refuseSteer (entry : QueueEntry)
  | restore (batch : List QueueEntry)
  | deliver

/-- What the caller of a mutation keeps of the entry it took out. -/
def removedEntries : Except MutationRefused MutationApplied → List QueueEntry
  | .ok report => (report.removed.map QueueEntry.user).toList
  | .error _ => []

inductive Step : Custody → Label → Custody → Prop
  | enqueue (state : Custody) (entry : QueueEntry) :
      (∀ id, entry.id = some id → id ∉ state.used) →
      Step state (.enqueue entry)
        { state with
          queue := (enqueuePendingObservation state.queue entry).2
          used := state.used ++ entry.id.toList }
  | mutate (state : Custody) (mutation : QueueMutation) :
      Step state (.mutate mutation)
        { state with
          queue := (applyMutation state.queue mutation).2
          steered := state.steered ++ removedEntries (applyMutation state.queue mutation).1 }
  | drain (state : Custody) (count : Nat) :
      Step state (.drain count)
        { state with
          queue := state.queue.drop count
          drained := state.drained ++ state.queue.take count }
  | rebuffer {state : Custody} {batch rest : List QueueEntry} :
      state.drained.Perm (batch ++ rest) →
      Step state (.rebuffer batch)
        { state with queue := rebufferHead state.queue batch, drained := rest }
  | refuseSteer {state : Custody} {entry : QueueEntry} {rest : List QueueEntry} :
      state.steered.Perm (entry :: rest) →
      Step state (.refuseSteer entry)
        { state with queue := rebufferHead state.queue [entry], steered := rest }
  | restore {state : Custody} {batch rest : List QueueEntry} :
      state.steered.Perm (batch ++ rest) →
      Step state (.restore batch)
        { state with
          queue := rebufferHead state.queue (batch.map fun entry => entry.bumpRevForRestore.2)
          steered := rest }
  | deliver {state : Custody} {gone rest gone' rest' : List QueueEntry} :
      state.drained.Perm (gone ++ rest) → state.steered.Perm (gone' ++ rest') →
      Step state .deliver { state with drained := rest, steered := rest' }

abbrev Reaches : Custody → Custody → Prop :=
  Relation.ReflTransGen fun before after => ∃ label, Step before label after

/-! ## What a step does to the entries held -/

theorem advances_refl (entries : List QueueEntry) :
    List.Forall₂ QueueEntry.Advances entries entries :=
  forall₂_same.mpr fun entry _ => QueueEntry.Advances.refl entry

/-- Entries advance where they stand, some go, and new ones have ids never used. -/
structure Evolution (before after : Custody) : Prop where
  entries : ∃ kept kept' new, kept.Subperm before.held ∧
    List.Forall₂ QueueEntry.Advances kept kept' ∧
    after.held.Perm (kept' ++ new) ∧ (ids new).Nodup ∧
    ∀ id ∈ ids new, id ∉ before.used ∧ id ∈ after.used
  used : before.used ⊆ after.used

theorem ids_append : ids (first ++ second) = ids first ++ ids second := filterMap_append

theorem ids_of_advances (advances : List.Forall₂ QueueEntry.Advances kept kept') :
    ids kept' = ids kept := by
  induction advances with
  | nil => rfl
  | cons first _ ih => simp only [ids, filterMap_cons, first.id_eq] at ih ⊢; rw [ih]

variable {after : Custody} {queue : List QueueEntry}

/-- Nothing new: what is held afterwards comes from what was held. -/
theorem Evolution.of_kept (sub : kept.Subperm before.held)
    (advances : List.Forall₂ QueueEntry.Advances kept kept') (held : after.held.Perm kept')
    (used : before.used ⊆ after.used) : Evolution before after :=
  ⟨⟨kept, kept', [], sub, advances, by simpa using held, nodup_nil, by simp [ids]⟩, used⟩

/-- Entries only change hands. -/
theorem Evolution.of_subperm (sub : after.held.Subperm before.held)
    (used : before.used ⊆ after.used) : Evolution before after :=
  .of_kept sub (advances_refl _) (.refl _) used

theorem Enqueued.evolution (enqueued : Enqueued state.queue entry outcome queue)
    (fresh : ∀ id, entry.id = some id → id ∉ state.used) :
    Evolution state { state with queue, used := state.used ++ entry.id.toList } := by
  have grows : state.used ⊆ state.used ++ entry.id.toList := subset_append_left _ _
  have isNew : (ids [entry]).Nodup ∧ ∀ id ∈ ids [entry],
      id ∉ state.used ∧ id ∈ state.used ++ entry.id.toList := by
    cases isId : entry.id with
    | none => simp [ids, isId]
    | some id => simpa [ids, isId] using fresh id isId
  cases enqueued with
  | @folded front last _ merged _ isQueue folded =>
    refine .of_kept (List.Subperm.refl _) ?_ (.refl _) grows
    rw [Custody.held, isQueue]
    have tail : List.Forall₂ QueueEntry.Advances [last]
        [merged.absorb entry.envelopeId entry.messageIds] :=
      .cons ((foldInto_folded folded).advances) .nil
    exact rel_append (rel_append (advances_refl front) tail) (advances_refl _)
  | pushed =>
    refine ⟨⟨state.held, state.held, [entry], .refl _, advances_refl _, ?_, isNew⟩, grows⟩
    rw [Custody.held, Custody.held, append_assoc, append_assoc]
    exact perm_append_comm.append_left state.queue
  | @evicted front dropped rest isQueue =>
    refine ⟨⟨front ++ rest ++ (state.drained ++ state.steered), _, [entry], ?_, advances_refl _, ?_,
      isNew⟩, grows⟩
    · rw [Custody.held, isQueue]
      exact (((sublist_cons_self dropped rest).append_left front).append_right _).subperm
    · rw [Custody.held, append_assoc _ [entry], append_assoc (front ++ rest) _ [entry]]
      exact perm_append_comm.append_left (front ++ rest)
  | rejected => exact .of_subperm (.refl _) grows

theorem advances_edited (room : held.rev ≠ revMax) :
    List.Forall₂ QueueEntry.Advances (front ++ .user held :: rest)
      (front ++ .user { held with text, rev := held.rev + 1 } :: rest) := by
  have edited : held.Advances { held with text, rev := held.rev + 1 } := .of_rev rfl room rfl
  exact rel_append (advances_refl front) (.cons (.user edited) (advances_refl rest))

theorem Mutated.evolution (mutated : Mutated state.queue mutation result queue) :
    Evolution state { state with queue, steered := state.steered ++ removedEntries result } := by
  cases mutated with
  | refused =>
    refine .of_subperm ?_ (List.Subset.refl _)
    simpa [Custody.held, removedEntries] using List.Subperm.refl _
  | @edited text front rest _ held _ isQueue room removed =>
    have advances : List.Forall₂ QueueEntry.Advances state.held
        (front ++ .user { held with text, rev := held.rev + 1 } :: rest ++
          (state.drained ++ state.steered)) := by
      rw [Custody.held, isQueue]
      exact rel_append (advances_edited room) (advances_refl _)
    refine .of_kept (List.Subperm.refl _) advances ?_ (List.Subset.refl _)
    simp [Custody.held, removedEntries, removed]
  | @deleted front rest _ _ _ isQueue removed =>
    refine .of_subperm ?_ (List.Subset.refl _)
    simp only [Custody.held, removedEntries, removed, map_none, toList_none, append_nil, isQueue]
    exact (((sublist_cons_self _ rest).append_left front).append_right _).subperm
  | @steered front _ _ _ _ isQueue _ removed =>
    refine .of_subperm ?_ (List.Subset.refl _)
    simp only [Custody.held, removedEntries, removed, map_some, toList_some, isQueue]
    apply List.Perm.subperm
    rw [append_assoc front, append_assoc front, cons_append]
    apply List.Perm.append_left
    rw [← append_assoc, ← append_assoc, ← append_assoc]
    exact perm_append_singleton _ _

/-- What a steer took out is a user entry with room for another revision. -/
def Steerable (entry : QueueEntry) : Prop :=
  ∃ held : UserEntry, entry = .user held ∧ held.rev ≠ revMax

theorem Steerable.bump (steerable : Steerable entry) :
    ∃ held : UserEntry, entry = .user held ∧
      entry.bumpRevForRestore = (true, .user { held with rev := held.rev + 1 }) ∧
      (held.rev + 1).toNat = held.rev.toNat + 1 := by
  obtain ⟨held, rfl, room⟩ := steerable
  refine ⟨held, rfl, ?_, rev_succ room⟩
  rw [QueueEntry.bumpRevForRestore, if_neg room]

theorem advances_bump (steerable : ∀ entry ∈ batch, Steerable entry) :
    List.Forall₂ QueueEntry.Advances batch (batch.map fun entry => entry.bumpRevForRestore.2) := by
  rw [forall₂_map_right_iff, forall₂_same]
  intro entry among
  obtain ⟨_, rfl, bumped, up⟩ := (steerable entry among).bump
  rw [bumped]
  exact .user ⟨rfl, .inr up⟩

theorem Step.evolution (step : Step before label after)
    (steerable : ∀ entry ∈ before.steered, Steerable entry) : Evolution before after := by
  cases step with
  | enqueue entry fresh => exact (enqueuePendingObservation_enqueued _ entry).evolution fresh
  | mutate mutation => exact (applyMutation_mutated _ mutation).evolution
  | drain count =>
    refine .of_subperm (List.Perm.subperm ?_) (List.Subset.refl _)
    have order : (before.queue.drop count ++ (before.drained ++ before.queue.take count ++
        before.steered)).Perm ((before.queue.take count ++ before.queue.drop count) ++
          (before.drained ++ before.steered)) := by
      rw [append_assoc before.drained, append_assoc (before.queue.take count)]
      refine (perm_append_comm_assoc _ _ _).trans ?_
      refine (List.Perm.append_left _ (perm_append_comm_assoc _ _ _)).trans ?_
      refine (perm_append_comm_assoc _ _ _).trans ?_
      exact List.Perm.append_left _ (perm_append_comm_assoc _ _ _)
    rw [take_append_drop] at order
    exact order
  | @rebuffer _ _ drained =>
    refine .of_subperm (List.Perm.subperm ?_) (List.Subset.refl _)
    rw [Custody.held, Custody.held, rebufferHead, append_assoc]
    refine (perm_append_comm_assoc _ _ _).trans (List.Perm.append_left _ ?_)
    rw [← append_assoc]
    exact drained.symm.append_right _
  | @refuseSteer _ _ steered =>
    refine .of_subperm (List.Perm.subperm ?_) (List.Subset.refl _)
    rw [Custody.held, Custody.held, rebufferHead, append_assoc]
    refine (perm_append_comm_assoc _ _ _).trans (List.Perm.append_left _ ?_)
    refine (perm_append_comm_assoc _ _ _).trans (List.Perm.append_left _ ?_)
    exact steered.symm
  | @restore batch rest steered =>
    have room : ∀ entry ∈ batch, Steerable entry := fun entry among =>
      steerable entry (steered.mem_iff.mpr (mem_append_left _ among))
    have order : (batch ++ (before.queue ++ (before.drained ++ rest))).Perm before.held := by
      refine (perm_append_comm_assoc _ _ _).trans (List.Perm.append_left _ ?_)
      refine (perm_append_comm_assoc _ _ _).trans (List.Perm.append_left _ ?_)
      exact steered.symm
    refine .of_kept order.subperm (rel_append (advances_bump room) (advances_refl _)) ?_
      (List.Subset.refl _)
    rw [Custody.held, rebufferHead, append_assoc]
  | @deliver gone rest gone' rest' drained steered =>
    refine .of_subperm ?_ (List.Subset.refl _)
    refine List.Subperm.trans ?_ (List.Perm.append_left before.queue
      (drained.append steered)).symm.subperm
    apply List.Sublist.subperm
    exact ((sublist_append_right gone rest).append (sublist_append_right gone' rest')).append_left _

/-! ## Invariants -/

structure Custody.Sound (state : Custody) : Prop where
  distinct : (ids state.held).Nodup
  known : ∀ id ∈ ids state.held, id ∈ state.used
  steerable : ∀ entry ∈ state.steered, Steerable entry

theorem Evolution.distinct (evolution : Evolution before after) (sound : before.Sound) :
    (ids after.held).Nodup ∧ ∀ id ∈ ids after.held, id ∈ after.used := by
  obtain ⟨⟨kept, _, new, sub, advances, held, nodup, fresh⟩, used⟩ := evolution
  have order : (ids after.held).Perm (ids kept ++ ids new) := by
    have named := held.filterMap QueueEntry.id
    rwa [← ids, ← ids, ids_append, ids_of_advances advances] at named
  have old : (ids kept).Subperm (ids before.held) := by
    obtain ⟨among, perm, sublist⟩ := sub
    exact ⟨ids among, perm.filterMap _, sublist.filterMap _⟩
  have oldNodup : (ids kept).Nodup := by
    obtain ⟨among, perm, sublist⟩ := old
    exact perm.nodup_iff.mp (sound.distinct.sublist sublist)
  constructor
  · rw [order.nodup_iff]
    refine oldNodup.append nodup ?_
    intro id here there
    exact (fresh id there).1 (sound.known id (old.subset here))
  · intro id among
    rcases mem_append.mp (order.mem_iff.mp among) with here | there
    · exact used (sound.known id (old.subset here))
    · exact (fresh id there).2

theorem Step.steerable (step : Step before label after)
    (steerable : ∀ entry ∈ before.steered, Steerable entry) :
    ∀ entry ∈ after.steered, Steerable entry := by
  cases step with
  | enqueue | drain | rebuffer => exact steerable
  | mutate mutation =>
    intro entry among
    rcases mem_append.mp among with there | taken
    · exact steerable entry there
    · have mutated := applyMutation_mutated before.queue mutation
      revert taken mutated
      generalize (applyMutation before.queue mutation).1 = result
      generalize (applyMutation before.queue mutation).2 = queue
      intro taken mutated
      cases mutated with
      | refused => cases taken
      | edited _ _ _ removed | deleted _ _ removed => simp [removedEntries, removed] at taken
      | @steered _ _ held _ _ _ room removed =>
        simp only [removedEntries, removed, map_some, toList_some, mem_singleton] at taken
        exact ⟨held, taken, room⟩
  | refuseSteer steered =>
    exact fun entry among => steerable entry (steered.mem_iff.mpr (mem_cons_of_mem _ among))
  | restore steered | deliver _ steered =>
    exact fun entry among => steerable entry (steered.mem_iff.mpr (mem_append_right _ among))

theorem Step.sound (step : Step before label after) (sound : before.Sound) : after.Sound := by
  obtain ⟨distinct, known⟩ := (step.evolution sound.steerable).distinct sound
  exact ⟨distinct, known, step.steerable sound.steerable⟩

theorem Reaches.sound (run : Reaches before after) (sound : before.Sound) : after.Sound := by
  induction run with
  | refl => exact sound
  | tail _ step ih => exact step.choose_spec.sound ih

theorem Custody.init_sound (distinct : (ids queue).Nodup) : (Custody.init queue).Sound := by
  have held : (Custody.init queue).held = queue := by simp [Custody.held, Custody.init]
  refine ⟨by rwa [held], fun id among => ?_, nofun⟩
  rwa [held] at among

/-! ## Histories -/

/-- Every user entry held later under an id used before was held before, with a revision no
greater, and with the same text if the revision is the same. -/
structure Follows (before after : Custody) : Prop where
  earlier : ∀ later : UserEntry, .user later ∈ after.held → later.id ∈ before.used →
    ∃ earlier : UserEntry, .user earlier ∈ before.held ∧ earlier.id = later.id ∧
      earlier.rev.toNat ≤ later.rev.toNat ∧ (earlier.rev = later.rev → earlier.text = later.text)
  used : before.used ⊆ after.used

theorem Evolution.follows (evolution : Evolution before after) : Follows before after := by
  obtain ⟨⟨kept, _, new, sub, advances, held, -, fresh⟩, used⟩ := evolution
  refine ⟨fun later among known => ?_, used⟩
  rcases mem_append.mp (held.mem_iff.mp among) with here | there
  · obtain ⟨index, bound, isLater⟩ := mem_iff_getElem.mp here
    have bound' : index < kept.length := advances.length_eq ▸ bound
    have step := advances.get bound' bound
    simp only [get_eq_getElem, isLater] at step
    have within := sub.subset (getElem_mem bound')
    revert step within
    generalize kept[index] = entry
    intro step within
    cases step with
    | @user earlier _ changed =>
      refine ⟨earlier, within, changed.id.symm, ?_⟩
      rcases changed.version with ⟨sameRev, sameText⟩ | up
      · exact ⟨by rw [sameRev], fun _ => sameText.symm⟩
      · refine ⟨by omega, fun same => ?_⟩
        rw [same] at up
        omega
  · have named : later.id ∈ ids new := mem_filterMap.mpr ⟨_, there, rfl⟩
    exact absurd known (fresh _ named).1

theorem Follows.trans (one : Follows first second) (two : Follows second third) :
    Follows first third := by
  refine ⟨fun latest among known => ?_, fun id used => two.used (one.used used)⟩
  obtain ⟨later, among', same', rev', text'⟩ := two.earlier latest among (one.used known)
  obtain ⟨earlier, among'', same'', rev'', text''⟩ := one.earlier later among' (same' ▸ known)
  refine ⟨earlier, among'', same''.trans same', rev''.trans rev', fun same => ?_⟩
  have middle : earlier.rev = later.rev := by
    apply UInt32.toNat_inj.mp
    have top := congrArg UInt32.toNat same
    omega
  rw [text'' middle, text' (middle.symm.trans same)]

theorem Reaches.follows (run : Reaches before after) (sound : before.Sound) :
    Follows before after := by
  induction run with
  | refl => exact (Evolution.of_subperm (.refl _) (List.Subset.refl _)).follows
  | tail run step ih =>
    obtain ⟨_, step⟩ := step
    exact ih.trans (step.evolution (Reaches.sound run sound).steerable).follows

theorem eq_of_id (distinct : (ids entries).Nodup) (one : .user first ∈ entries)
    (two : .user second ∈ entries) (same : first.id = second.id) : first = second := by
  induction entries with
  | nil => cases one
  | cons entry rest ih =>
    have step : ∀ other : UserEntry, ∀ there : .user other ∈ rest, entry.id ≠ some other.id := by
      intro other there named
      rw [ids, filterMap_cons, named, nodup_cons] at distinct
      exact distinct.1 (mem_filterMap.mpr ⟨_, there, rfl⟩)
    rcases mem_cons.mp one with here | there <;> rcases mem_cons.mp two with here' | there'
    · exact QueueEntry.user.inj (here.trans here'.symm)
    · exact absurd (by rw [← here, QueueEntry.id, same]) (step second there')
    · exact absurd (by rw [← here', QueueEntry.id, same]) (step first there)
    · refine ih ?_ there there'
      rw [ids, filterMap_cons] at distinct
      split at distinct
      next => exact distinct
      next => exact (nodup_cons.mp distinct).2

/-- The page a client reads shows an entry with this id, revision and text. -/
def Custody.Shows (state : Custody) (id : Text) (rev : UInt32) (text : Text) : Prop :=
  ∃ entry : UserEntry, .user entry ∈ state.queue ∧ entry.id = id ∧ entry.rev = rev ∧
    entry.text = text

theorem Custody.mem_held_of_queue {state : Custody} (among : entry ∈ state.queue) :
    entry ∈ state.held :=
  mem_append_left _ among

/-! ## Departures -/

def users (entries : List QueueEntry) : List QueueEntry :=
  entries.filter QueueEntry.isUserAuthored

/-- What a step may not take out of the queue: a drain takes the front, a delete or steer the
entry it names, other steps nothing. -/
def Label.remaining (queue : List QueueEntry) : Label → List QueueEntry
  | .drain count => queue.drop count
  | .mutate (.delete entryId _) | .mutate (.steer entryId _) =>
    queue.filter fun entry => entry.id != some entryId
  | _ => queue

/-- The user entries of `entries` are all still there, advanced where they stand. -/
def Remain (entries queue : List QueueEntry) : Prop :=
  ∃ kept, kept.Sublist queue ∧ List.Forall₂ QueueEntry.Advances (users entries) kept

theorem Remain.of_sublist (sub : (users entries).Sublist queue) : Remain entries queue :=
  ⟨users entries, sub, advances_refl _⟩

theorem users_sublist (entries : List QueueEntry) : (users entries).Sublist entries :=
  filter_sublist

theorem Remain.of_advances (advances : List.Forall₂ QueueEntry.Advances entries queue) :
    Remain entries queue := by
  induction advances with
  | nil => exact ⟨[], nil_sublist _, .nil⟩
  | @cons entry entry' _ _ first _ ih =>
    obtain ⟨kept, sub, advances⟩ := ih
    by_cases user : entry.isUserAuthored = true
    · refine ⟨entry' :: kept, sub.cons_cons entry', ?_⟩
      rw [users, filter_cons_of_pos user]
      exact .cons first advances
    · refine ⟨kept, sub.cons entry', ?_⟩
      rw [users, filter_cons_of_neg user]
      exact advances

theorem Enqueued.remain {queue after : List QueueEntry}
    (enqueued : Enqueued queue entry outcome after) : Remain queue after := by
  cases enqueued with
  | @folded front _ _ _ _ isQueue folded =>
    rw [isQueue]
    exact .of_advances (rel_append (advances_refl front)
      (.cons ((foldInto_folded folded).advances) .nil))
  | pushed => exact .of_sublist ((users_sublist queue).trans (sublist_append_left _ _))
  | @evicted _ dropped _ isQueue soft =>
    apply Remain.of_sublist
    rw [isQueue, users, filter_append, filter_cons_of_neg (by simp [dropped.system_of_soft soft]),
      ← filter_append]
    exact filter_sublist.trans (sublist_append_left _ _)
  | rejected => exact .of_sublist (users_sublist queue)

theorem Mutated.remain {queue after : List QueueEntry}
    (mutated : Mutated queue mutation result after) :
    Remain ((Label.mutate mutation).remaining queue) after := by
  have fewer : ((Label.mutate mutation).remaining queue).Sublist queue := by
    cases mutation with
    | edit => exact List.Sublist.refl _
    | delete | steer => exact filter_sublist
  cases mutated with
  | refused => exact .of_sublist ((users_sublist _).trans fewer)
  | @edited _ _ _ _ _ isMutation isQueue room =>
    rw [isMutation, isQueue]
    exact .of_advances (advances_edited room)
  | @deleted _ _ _ _ isMutation isQueue | @steered _ _ _ _ isMutation isQueue =>
    rw [isMutation, isQueue]
    apply Remain.of_sublist
    refine (users_sublist _).trans ?_
    rw [Label.remaining, filter_append, filter_cons_of_neg (by simp [QueueEntry.id])]
    exact filter_sublist.append filter_sublist

theorem Step.remain (step : Step before label after) :
    Remain (label.remaining before.queue) after.queue := by
  cases step with
  | enqueue entry => exact (enqueuePendingObservation_enqueued _ entry).remain
  | mutate mutation => exact (applyMutation_mutated _ mutation).remain
  | drain | deliver => exact .of_sublist (users_sublist _)
  | rebuffer | refuseSteer | restore =>
    exact .of_sublist ((users_sublist _).trans (sublist_append_right _ _))

/-- An accepted message is in the queue, or ends the text of its tail. -/
theorem Enqueued.holds {queue after : List QueueEntry} {entry : UserEntry}
    (enqueued : Enqueued queue (.user entry) outcome after) (accepted : outcome ≠ .rejected) :
    .user entry ∈ after ∨ ∃ tail text, after.getLast? = some tail ∧
      tail.userText = some text ∧ entry.text <:+ text := by
  cases enqueued with
  | @folded _ _ _ _ _ _ folded =>
    obtain ⟨text, isText, suffix⟩ := (foldInto_folded folded).suffix
    exact .inr ⟨_, text, getLast?_concat, isText, suffix⟩
  | pushed | evicted => exact .inl (mem_append_right _ (mem_singleton_self _))
  | rejected => exact absurd rfl accepted

/-! ## The queue contract -/

/-- What a mutation puts in the place of its entry. -/
def QueueMutation.leaves (held : UserEntry) : QueueMutation → List QueueEntry
  | .edit _ text _ => [.user { held with text, rev := held.rev + 1 }]
  | .delete _ _ | .steer _ _ => []

theorem Mutated.seen {queue after : List QueueEntry}
    (mutated : Mutated queue mutation (.ok report) after) :
    ∃ front rest, ∃ held : UserEntry, queue = front ++ .user held :: rest ∧
      held.id = mutation.entryId ∧ held.rev = mutation.ifEntryRev ∧
      after = front ++ (mutation.leaves held ++ rest) := by
  cases mutated with
  | edited isMutation isQueue | deleted isMutation isQueue | steered isMutation isQueue =>
    rw [isMutation]
    exact ⟨_, _, _, isQueue, rfl, rfl, rfl⟩

theorem Mutated.unchanged {queue after : List QueueEntry} {refused : MutationRefused}
    (mutated : Mutated queue mutation (.error refused) after) : after = queue := by
  cases mutated
  rfl

/-- **Queue edits act only on what the client saw.**  In every history from a queue whose user
entries have distinct ids: ids stay distinct over the queue and what is in flight; two pages
that show the same id and revision show the same text; a mutation succeeds only on an entry of
that id and revision and changes no other, and refused changes nothing; no revision ever wraps, and
a restore of a steered entry is one revision up; and a user entry leaves the queue only by a drain,
a delete or a steer of its id, or by being folded into a tail whose text then ends with its own. -/
theorem queue_edits_seen {queue : List QueueEntry} (distinct : (ids queue).Nodup)
    {state : Custody} (run : Reaches (Custody.init queue) state) :
    (ids (state.queue ++ (state.drained ++ state.steered))).Nodup ∧
    (∀ later, Reaches state later → ∀ id rev text text',
      state.Shows id rev text → later.Shows id rev text' → text = text') ∧
    (∀ mutation : QueueMutation,
      (∀ report, (applyMutation state.queue mutation).1 = .ok report →
        ∃ front rest, ∃ held : UserEntry, state.queue = front ++ .user held :: rest ∧
          state.Shows mutation.entryId mutation.ifEntryRev held.text ∧
          (applyMutation state.queue mutation).2 = front ++ (mutation.leaves held ++ rest)) ∧
      (∀ refused, (applyMutation state.queue mutation).1 = .error refused →
        (applyMutation state.queue mutation).2 = state.queue)) ∧
    (∀ label next, Step state label next →
      (∀ entry entry' : UserEntry, .user entry ∈ state.held → .user entry' ∈ next.held →
        entry'.id = entry.id → entry.rev.toNat ≤ entry'.rev.toNat) ∧
      (∀ batch, label = .restore batch → ∀ entry ∈ batch, ∃ steered : UserEntry,
        entry = .user steered ∧ ∃ restored : UserEntry, .user restored ∈ next.queue ∧
          restored.id = steered.id ∧ restored.text = steered.text ∧
          restored.rev.toNat = steered.rev.toNat + 1) ∧
      Remain (label.remaining state.queue) next.queue ∧
      (∀ entry : UserEntry, label = .enqueue (.user entry) →
        (enqueuePendingObservation state.queue (.user entry)).1 ≠ .rejected →
        .user entry ∈ next.queue ∨ ∃ tail text, next.queue.getLast? = some tail ∧
          tail.userText = some text ∧ entry.text <:+ text)) := by
  have sound := Reaches.sound run (Custody.init_sound distinct)
  refine ⟨sound.distinct, ?_, fun mutation => ⟨?_, ?_⟩, fun label next step => ⟨?_, ?_, ?_, ?_⟩⟩
  · rintro _ more _ rev _ _ ⟨entry, among, rfl, rfl, rfl⟩ ⟨entry', among', same, rev, rfl⟩
    have known := sound.known entry.id (mem_filterMap.mpr ⟨_, Custody.mem_held_of_queue among, rfl⟩)
    obtain ⟨_, held, named, -, sameText⟩ := (Reaches.follows more sound).earlier entry'
      (Custody.mem_held_of_queue among') (same ▸ known)
    have isEntry := eq_of_id sound.distinct held (Custody.mem_held_of_queue among)
      (named.trans same)
    rw [isEntry] at sameText
    exact sameText rev.symm
  · intro report ok
    have mutated := applyMutation_mutated state.queue mutation
    rw [ok] at mutated
    obtain ⟨front, rest, held, isQueue, isId, isRev, after⟩ := mutated.seen
    refine ⟨front, rest, held, isQueue, ⟨held, ?_, isId, isRev, rfl⟩, after⟩
    rw [isQueue]
    exact mem_append_right _ mem_cons_self
  · intro refused error
    have mutated := applyMutation_mutated state.queue mutation
    rw [error] at mutated
    exact mutated.unchanged
  · intro entry entry' among among' same
    have known := sound.known entry.id (mem_filterMap.mpr ⟨_, among, rfl⟩)
    obtain ⟨_, held, named, rev, -⟩ := (step.evolution sound.steerable).follows.earlier
      entry' among' (same ▸ known)
    rwa [eq_of_id sound.distinct held among (named.trans same)] at rev
  · rintro _ rfl entry among
    cases step with
    | restore steered =>
      obtain ⟨held, rfl, bumped, up⟩ := (sound.steerable entry
        (steered.mem_iff.mpr (mem_append_left _ among))).bump
      refine ⟨held, rfl, { held with rev := held.rev + 1 }, ?_, rfl, rfl, up⟩
      exact mem_append_left _ (mem_map.mpr ⟨_, among, by rw [bumped]⟩)
  · exact step.remain
  · rintro _ rfl accepted
    cases step with
    | enqueue => exact (enqueuePendingObservation_enqueued _ _).holds accepted

def trialNote : UserEntry :=
  { id := ['a'], text := ['h', 'i'], rev := 0, queuedAtMs := 0, envelopeId := none,
    messageIds := [], attachments := [] }

/-- The note is on its way into a running turn. -/
def trialSteered : Custody :=
  { queue := [], drained := [], steered := [.user trialNote], used := [['a']] }

def trialRestored : Custody :=
  { trialSteered with queue := [.user { trialNote with rev := 1 }], steered := [] }

/-- A delete from before the steer is refused after the restore, and the note stays. -/
theorem queue_edits_seen_trial :
    (applyMutation trialRestored.queue (.delete ['a'] 0)).1 = .error (.stale ['a'] ['h', 'i'] 1) ∧
    (applyMutation trialRestored.queue (.delete ['a'] 0)).2 = trialRestored.queue ∧
    (ids trialRestored.queue).Nodup := by
  have steer : Step (Custody.init [.user trialNote]) (.mutate (.steer ['a'] 0)) trialSteered :=
    .mutate _ _
  have restore : Step trialSteered (.restore [.user trialNote]) trialRestored :=
    .restore (.refl [QueueEntry.user trialNote])
  have refused : (applyMutation trialRestored.queue (.delete ['a'] 0)).1 =
      .error (.stale ['a'] ['h', 'i'] 1) := by
    decide +kernel
  obtain ⟨distinct, -, mutations, -⟩ := queue_edits_seen
    (show (ids [.user trialNote]).Nodup by decide) (.tail (.tail .refl ⟨_, steer⟩) ⟨_, restore⟩)
  refine ⟨refused, (mutations (.delete ['a'] 0)).2 _ refused, ?_⟩
  rw [ids_append] at distinct
  exact distinct.of_append_left

end NeigeCalm.Harness
